import Argot.Files.FileTree
import Argot.Proofs.Files.Paths
/-!
# Trees — where paths lead, and what stays on the way

A path leads to the end of its parts (`placeOf`) if every place on the way is a directory and no name is too long
(`walk_eq_ok_iff`).  A tree comes later than another if nothing that was there has changed its kind (`Later`); what a
path led to it still leads to, and where the way was blocked it is blocked in the same manner.
-/
namespace Argot
namespace FileTree

open Argot.Path

/-- A tree whose root and the directory one is in are there. -/
structure Rooted (t : FileTree) : Prop where
  root : t.entry? [] = some .directory
  base : t.entry? t.base = some .directory

/-- A tree as a file system keeps it: it is rooted, and names are names. -/
structure Sound (t : FileTree) : Prop extends Rooted t where
  plain : ∀ place ∈ t.entries.keys, ∀ c ∈ place, IsPlain c

/-- A tree with a directory to work in and files there. -/
def workDirectory (files : List (String × List UInt8)) : FileTree :=
  files.foldl (fun t f => t.put ["work", f.1] (.file f.2 { stamp := .given 1 })) (bare ["work"])

/-- The place that parts lead to from a place, if nothing is in the way. -/
def endOf (here : Place) (parts : List String) : Place :=
  parts.foldl step here

@[simp] theorem endOf_nil (here : Place) : endOf here [] = here := rfl

@[simp] theorem endOf_cons (here : Place) (part : String) (rest : List String) :
    endOf here (part :: rest) = endOf (step here part) rest := rfl

@[simp] theorem endOf_append (here : Place) (parts rest : List String) :
    endOf here (parts ++ rest) = endOf (endOf here parts) rest :=
  List.foldl_append

theorem step_of_isPlain (here : Place) {part : String} (h : IsPlain part) : step here part = here ++ [part] := by
  obtain ⟨⟨hempty, hdot, -⟩, hup⟩ := h
  unfold step
  rw [if_neg hup, if_neg (by simp [hempty, hdot])]

theorem endOf_of_isPlain : ∀ {way : List String} (here : Place), (∀ c ∈ way, IsPlain c) → endOf here way = here ++ way
  | [], here, _ => (List.append_nil here).symm
  | c :: way, here, h => by
    rw [endOf_cons, step_of_isPlain here (h c List.mem_cons_self),
      endOf_of_isPlain _ fun c' hc' => h c' (List.mem_cons_of_mem _ hc'), List.append_assoc]
    rfl

theorem plain_step {here : Place} {part : String} (hhere : ∀ c ∈ here, IsPlain c) (hpart : IsComponent part) :
    ∀ c ∈ step here part, IsPlain c := by
  intro c hc
  unfold step at hc
  by_cases hup : part = ".."
  · rw [if_pos hup] at hc
    exact hhere c (List.dropLast_subset _ hc)
  · rw [if_neg hup] at hc
    by_cases hstay : (part = "" || part = ".") = true
    · rw [if_pos hstay] at hc
      exact hhere c hc
    · rw [if_neg hstay, List.mem_append, List.mem_singleton] at hc
      rcases hc with hc | rfl
      · exact hhere c hc
      · exact ⟨hpart, hup⟩

theorem plain_endOf : ∀ {parts : List String} {here : Place}, (∀ c ∈ here, IsPlain c) → (∀ c ∈ parts, IsComponent c) →
    ∀ c ∈ endOf here parts, IsPlain c
  | [], _, hhere, _ => hhere
  | part :: rest, here, hhere, hparts => by
    rw [endOf_cons]
    exact plain_endOf (plain_step hhere (hparts part List.mem_cons_self)) fun c hc =>
      hparts c (List.mem_cons_of_mem _ hc)

variable {t t' : FileTree} {here place : Place} {parts : List String} {p : Path} {f : SystemFault}

/-- Where the way of a path begins. -/
def startOf (t : FileTree) (p : Path) : Place :=
  if p.root.isEmpty then t.base else []

/-- The place that a path leads to, if nothing is in the way. -/
def placeOf (t : FileTree) (p : Path) : Place :=
  endOf (t.startOf p) p.parts

theorem Rooted.start (h : t.Rooted) (p : Path) : t.entry? (t.startOf p) = some .directory := by
  unfold startOf
  by_cases hroot : p.root.isEmpty = true
  · rw [if_pos hroot]
    exact h.base
  · rw [if_neg hroot]
    exact h.root

theorem startOf_of_base (p : Path) (h : t'.base = t.base) : t'.startOf p = t.startOf p := by
  unfold startOf
  rw [h]

theorem placeOf_of_base (p : Path) (h : t'.base = t.base) : t'.placeOf p = t.placeOf p := by
  unfold placeOf
  rw [startOf_of_base p h]

theorem startOf_below (t : FileTree) (p : Path) (way : List String) : t.startOf (p.below way) = t.startOf p := rfl

theorem placeOf_below (t : FileTree) (p : Path) {way : List String} (h : ∀ c ∈ way, IsPlain c) :
    t.placeOf (p.below way) = t.placeOf p ++ way := by
  unfold placeOf
  rw [startOf_below, ← endOf_of_isPlain _ h]
  exact endOf_append _ _ _

/-- A path stands for the place that it leads to. -/
theorem resolve_eq_ok (hp : p.Proper) (h : p.resolve t.base = .ok place) : place = t.placeOf p := by
  have hfold : ∀ (parts : List String) (here : Place), (∀ c ∈ parts, IsComponent c) →
      parts.foldl (fun here part => if part = ".." then here.dropLast else here ++ [part]) here = endOf here parts := by
    intro parts
    induction parts with
    | nil => exact fun _ _ => rfl
    | cons part rest ih =>
      intro here hparts
      obtain ⟨hempty, hdot, -⟩ := hparts part List.mem_cons_self
      have hstep : step here part = if part = ".." then here.dropLast else here ++ [part] := by
        unfold step
        rw [if_neg (c := (part = "" || part = ".") = true) (by simp [hempty, hdot])]
      rw [List.foldl_cons, endOf_cons, hstep]
      exact ih _ fun c hc => hparts c (List.mem_cons_of_mem _ hc)
  unfold Path.resolve at h
  by_cases hnull : p.parts.any hasNull = true
  · rw [if_pos hnull] at h
    cases h
  · rw [if_neg hnull, hfold _ _ hp] at h
    exact (Except.ok.inj h).symm

theorem plain_placeOf (hbase : ∀ c ∈ t.base, IsPlain c) (hp : p.Proper) : ∀ c ∈ t.placeOf p, IsPlain c := by
  refine plain_endOf (fun c hc => ?_) hp
  unfold startOf at hc
  by_cases hroot : p.root.isEmpty = true
  · rw [if_pos hroot] at hc
    exact hbase c hc
  · rw [if_neg hroot] at hc
    exact (List.not_mem_nil hc).elim

theorem Sound.plain_base (h : t.Sound) : ∀ c ∈ t.base, IsPlain c := by
  refine h.plain _ ?_
  by_contra hmissing
  have hnone : t.entry? t.base = none := (t.entries.get?_eq_none_iff _).2 hmissing
  rw [h.base] at hnone
  cases hnone

def IsFileAt (t : FileTree) (place : Place) : Prop :=
  ∃ bytes status, t.entry? place = some (.file bytes status)

/-- No name is too long. -/
def Short (parts : List String) : Prop :=
  ∀ part ∈ parts, part.utf8ByteSize ≤ maxNameBytes

/-! ## Ways -/

theorem walk_cons_of_directory (part : String) (rest : List String) (h : t.entry? here = some .directory) :
    t.walk here (part :: rest) =
      if part.utf8ByteSize > maxNameBytes then .error .nameTooLong else t.walk (step here part) rest := by
  rw [walk, h]

theorem walk_append (rest : List String) : ∀ (parts : List String) (here : Place),
    t.walk here (parts ++ rest) = (t.walk here parts).bind fun place => t.walk place rest
  | [], here => rfl
  | part :: parts, here => by
    rw [List.cons_append, walk, walk]
    cases t.entry? here with
    | none => rfl
    | some e =>
      cases e with
      | file bytes status => rfl
      | directory =>
        dsimp only
        by_cases hlong : part.utf8ByteSize > maxNameBytes
        · rw [if_pos hlong, if_pos hlong]
          rfl
        · rw [if_neg hlong, if_neg hlong, walk_append rest parts]

/-- A way leads somewhere if it goes through directories and no name on it is too long. -/
theorem walk_eq_ok_iff : ∀ {parts : List String} {here : Place}, t.walk here parts = .ok place ↔
    place = endOf here parts ∧ Short parts ∧
      ∀ pre part rest, parts = pre ++ part :: rest → t.entry? (endOf here pre) = some .directory
  | [], here => by
    constructor
    · intro h
      cases h
      exact ⟨rfl, fun part hpart => (List.not_mem_nil hpart).elim, fun pre part rest h => by simp at h⟩
    · rintro ⟨rfl, -, -⟩
      rfl
  | part :: parts, here => by
    constructor
    · intro h
      rcases hhere : t.entry? here with _ | (_ | ⟨bytes, status⟩)
      · simp [walk, hhere] at h
      · rw [walk_cons_of_directory part parts hhere] at h
        by_cases hlong : part.utf8ByteSize > maxNameBytes
        · rw [if_pos hlong] at h
          cases h
        rw [if_neg hlong] at h
        obtain ⟨hplace, hshort, hway⟩ := walk_eq_ok_iff.1 h
        refine ⟨hplace, fun c hc => ?_, fun pre part' rest hsplit => ?_⟩
        · rcases List.mem_cons.1 hc with rfl | hc
          · exact Nat.le_of_not_gt hlong
          · exact hshort c hc
        · cases pre with
          | nil => exact hhere
          | cons c pre =>
            rw [List.cons_append, List.cons.injEq] at hsplit
            obtain ⟨rfl, hsplit⟩ := hsplit
            exact hway pre part' rest hsplit
      · simp [walk, hhere] at h
    · rintro ⟨hplace, hshort, hway⟩
      have hhere : t.entry? here = some .directory := hway [] part parts rfl
      rw [walk_cons_of_directory part parts hhere, if_neg (Nat.not_lt.2 (hshort part List.mem_cons_self))]
      exact walk_eq_ok_iff.2 ⟨hplace, fun c hc => hshort c (List.mem_cons_of_mem _ hc),
        fun pre part' rest hsplit => hway (part :: pre) part' rest (by rw [hsplit]; rfl)⟩

/-- A way ends where nothing is there, where a file is there, or in front of a name that is too long. -/
theorem walk_eq_error : ∀ {parts : List String} {here : Place}, t.walk here parts = .error f →
    ∃ pre part rest, parts = pre ++ part :: rest ∧ t.walk here pre = .ok (endOf here pre) ∧
      (f = .missing ∧ t.entry? (endOf here pre) = none ∨ f = .notDirectory ∧ t.IsFileAt (endOf here pre) ∨
        f = .nameTooLong ∧ t.entry? (endOf here pre) = some .directory ∧ maxNameBytes < part.utf8ByteSize)
  | [], here, h => by cases h
  | part :: parts, here, h => by
    rcases hhere : t.entry? here with _ | (_ | ⟨bytes, status⟩)
    · rw [walk, hhere] at h
      cases h
      exact ⟨[], part, parts, rfl, rfl, .inl ⟨rfl, hhere⟩⟩
    · rw [walk_cons_of_directory part parts hhere] at h
      by_cases hlong : part.utf8ByteSize > maxNameBytes
      · rw [if_pos hlong] at h
        cases h
        exact ⟨[], part, parts, rfl, rfl, .inr (.inr ⟨rfl, hhere, hlong⟩)⟩
      rw [if_neg hlong] at h
      obtain ⟨pre, part', rest, rfl, hwalk, hends⟩ := walk_eq_error h
      refine ⟨part :: pre, part', rest, rfl, ?_, hends⟩
      rw [walk_cons_of_directory part pre hhere, if_neg hlong, hwalk]
      rfl
    · rw [walk, hhere] at h
      cases h
      exact ⟨[], part, parts, rfl, rfl, .inr (.inl ⟨rfl, bytes, status, hhere⟩)⟩

/-! ## Asking for a path -/

/-- A path that the system is asked about. -/
def Askable (p : Path) : Prop :=
  hasNull p.toString = false ∧ p.toString.utf8ByteSize ≤ maxPathBytes

theorem toString_ne_empty (hp : p.Proper) : p.toString ≠ "" := by
  unfold Path.toString
  by_cases hempty : (p.root.isEmpty && p.parts.isEmpty) = true
  · rw [if_pos hempty]
    decide
  · rw [if_neg hempty]
    intro h
    have hlist := congrArg String.toList h
    rw [String.toList_append, String.toList_intercalate] at hlist
    obtain ⟨hroot, hparts⟩ := List.append_eq_nil_iff.1 hlist
    cases hpp : p.parts with
    | nil =>
      rw [hpp] at hempty
      simp_all
    | cons part rest =>
      have hpart : part.toList ≠ [] := fun hnil => (hp part (by simp [hpp])).1 (by simpa using hnil)
      rw [hpp, List.map_cons] at hparts
      cases hrest : rest.map String.toList <;> simp_all

theorem locate_of_askable (hp : p.Proper) (h : Askable p) :
    t.locate p = (t.walk (t.startOf p) p.parts).mapError (⟨·, p⟩) := by
  unfold locate
  rw [if_neg (by simp [h.1]), if_neg (Nat.not_lt.2 h.2), if_neg (by simpa using toString_ne_empty hp)]
  rfl

/-- About other paths every tree says the same. -/
theorem exists_locate_of_not_askable (h : ¬Askable p) :
    ∃ f, (f = .nullCharacter ∨ f = .nameTooLong) ∧ ∀ t : FileTree, t.locate p = .error ⟨f, p⟩ := by
  by_cases hnull : hasNull p.toString = true
  · exact ⟨.nullCharacter, .inl rfl, fun t => if_pos hnull⟩
  · have hlong : p.toString.utf8ByteSize > maxPathBytes := by
      by_contra hshort
      exact h ⟨by simpa using hnull, Nat.le_of_not_gt hshort⟩
    refine ⟨.nameTooLong, .inr rfl, fun t => ?_⟩
    unfold locate
    rw [if_neg hnull, if_pos hlong]

theorem locate_eq_ok_iff (hp : p.Proper) : t.locate p = .ok place ↔
    Askable p ∧ t.walk (t.startOf p) p.parts = .ok place := by
  by_cases h : Askable p
  · rw [locate_of_askable hp h]
    cases t.walk (t.startOf p) p.parts <;> simp [Except.mapError, h]
  · obtain ⟨f, -, hlocate⟩ := exists_locate_of_not_askable h
    rw [hlocate]
    simp [h]

theorem place_of_locate (hp : p.Proper) (h : t.locate p = .ok place) : place = t.placeOf p :=
  (walk_eq_ok_iff.1 ((locate_eq_ok_iff hp).1 h).2).1

theorem fileAt_eq_ok_iff {bytes : List UInt8} {status : FileStatus} : t.fileAt p = .ok (bytes, status) ↔
    ∃ place, t.locate p = .ok place ∧ t.entry? place = some (.file bytes status) := by
  unfold fileAt
  rcases t.locate p with e | place
  · exact iff_of_false nofun nofun
  · dsimp only [bind, Except.bind]
    rcases hentry : t.entry? place with _ | (_ | ⟨bytes', status'⟩) <;> simp [hentry]

/-- The bytes of the file at a path, whether it may be read or not. -/
def held (t : FileTree) (p : Path) : Except SystemError (List UInt8) :=
  (t.fileAt p).map Prod.fst

theorem held_of_locate {bytes : List UInt8} {status : FileStatus} (hlocate : t.locate p = .ok place)
    (hentry : t.entry? place = some (.file bytes status)) : t.held p = .ok bytes := by
  unfold held
  rw [fileAt_eq_ok_iff.2 ⟨place, hlocate, hentry⟩]
  rfl

theorem read_eq_ok_iff {bytes : List UInt8} : t.read p = .ok bytes ↔
    ∃ status : FileStatus, t.fileAt p = .ok (bytes, status) ∧ status.readable = true := by
  unfold FileTree.read
  rcases t.fileAt p with e | ⟨found, status⟩
  · exact iff_of_false nofun nofun
  · dsimp only [bind, Except.bind]
    by_cases hreadable : status.readable = true
    · rw [if_pos hreadable]
      constructor
      · rintro ⟨⟩
        exact ⟨status, rfl, hreadable⟩
      · rintro ⟨_, ⟨⟩, -⟩
        rfl
    · rw [if_neg hreadable]
      refine iff_of_false nofun ?_
      rintro ⟨_, ⟨⟩, h⟩
      exact hreadable h

/-- What can be read of a file is what it holds. -/
theorem held_of_read {bytes : List UInt8} (h : t.read p = .ok bytes) : t.held p = .ok bytes := by
  obtain ⟨status, hfile, -⟩ := read_eq_ok_iff.1 h
  unfold held
  rw [hfile]
  rfl

/-! ## Later trees -/

/-- A tree that came from another by making directories where nothing was and by writing files where no directory
was. -/
structure Later (t t' : FileTree) : Prop where
  base : t'.base = t.base
  room : t'.room = t.room
  directory : ∀ place, t.entry? place = some .directory → t'.entry? place = some .directory
  file : ∀ place, t.IsFileAt place → t'.IsFileAt place

theorem Later.refl (t : FileTree) : Later t t :=
  ⟨rfl, rfl, fun _ h => h, fun _ h => h⟩

theorem Later.trans {t'' : FileTree} (h : Later t t') (h' : Later t' t'') : Later t t'' where
  base := h'.base.trans h.base
  room := h'.room.trans h.room
  directory := fun place hd => h'.directory place (h.directory place hd)
  file := fun place hf => h'.file place (h.file place hf)

theorem Later.rooted (h : Later t t') (ht : t.Rooted) : t'.Rooted where
  root := h.directory _ ht.root
  base := by
    rw [h.base]
    exact h.directory _ ht.base

theorem Later.startOf (h : Later t t') (p : Path) : t'.startOf p = t.startOf p :=
  startOf_of_base p h.base

theorem Later.placeOf (h : Later t t') (p : Path) : t'.placeOf p = t.placeOf p :=
  placeOf_of_base p h.base

theorem fitting_of_room (place : Place) (bytes : List UInt8) (h : t'.room = t.room) :
    t'.fitting place bytes = t.fitting place bytes := by
  unfold fitting
  rw [h]

theorem Later.walk_ok (h : Later t t') (hwalk : t.walk here parts = .ok place) : t'.walk here parts = .ok place := by
  obtain ⟨hplace, hshort, hway⟩ := walk_eq_ok_iff.1 hwalk
  exact walk_eq_ok_iff.2 ⟨hplace, hshort, fun pre part rest hsplit => h.directory _ (hway pre part rest hsplit)⟩

theorem Later.walk_error (h : Later t t') (hwalk : t.walk here parts = .error f) (hf : f ≠ .missing) :
    t'.walk here parts = .error f := by
  obtain ⟨pre, part, rest, rfl, hpre, hends⟩ := walk_eq_error hwalk
  rw [walk_append, h.walk_ok hpre]
  rcases hends with ⟨rfl, -⟩ | ⟨rfl, hfile⟩ | ⟨rfl, hdir, hlong⟩
  · exact (hf rfl).elim
  · obtain ⟨bytes, status, hentry⟩ := h.file _ hfile
    simp [Except.bind, walk, hentry]
  · change t'.walk _ _ = _
    rw [walk_cons_of_directory part rest (h.directory _ hdir), if_pos hlong]

theorem Later.locate_ok (h : Later t t') (hp : p.Proper) (hlocate : t.locate p = .ok place) :
    t'.locate p = .ok place := by
  obtain ⟨hask, hwalk⟩ := (locate_eq_ok_iff hp).1 hlocate
  refine (locate_eq_ok_iff hp).2 ⟨hask, ?_⟩
  rw [h.startOf]
  exact h.walk_ok hwalk

end FileTree
end Argot
