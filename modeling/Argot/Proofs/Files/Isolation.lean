import Argot.Proofs.Files.Failures
import Argot.Proofs.Source.OneLine
import Mathlib.Data.List.Forall2
/-!
# Isolation — files of a batch that do not meddle with each other

Files whose outputs are apart, none at the place of another nor above it, become in a batch what they become alone.
What each of them opens, writes and makes is told by the workshop at the start (`Opens`, `Writes`, `Creates`), and after
any of them the workshop is that of the start with just this added (`Ahead`).  A file without a success is one that cannot
be read or decoded, that fails to be converted, whose outcome has errors, or whose output cannot be opened or written as
a whole (`Failure`).
-/
namespace Argot

namespace FileTree

open Argot.Path

variable {t : FileTree} {home : Path} {rest rest' pre more : List String} {q : Place}

theorem parent_below (home : Path) (h : rest ≠ []) : (home.below rest).parent.parts = home.parts ++ rest.dropLast :=
  List.dropLast_append_of_ne_nil h

/-- Where a file below a path lies on the way of another, the way leads to it from the path, or passes it before. -/
theorem place_on_way (hrest : ∀ c ∈ rest, IsPlain c) (hrest' : ∀ c ∈ rest', IsPlain c) (hne : rest ≠ [])
    (hne' : rest' ≠ []) (hway : (home.below rest).parent.parts = pre ++ more)
    (hplace : t.placeOf (home.below rest') = endOf (t.startOf home) pre) :
    (∃ more', (home.below rest').parent.parts = pre ++ more') ∨
      (home.below rest').parts <+: (home.below rest).parts := by
  rw [parent_below home hne] at hway
  rcases List.append_eq_append_iff.1 hway with ⟨mid, rfl, hmid⟩ | ⟨mid, hmid, -⟩
  · right
    have hplain : ∀ c ∈ mid, IsPlain c := fun c hc => hrest c (List.dropLast_subset _ (by
      rw [hmid]
      exact List.mem_append_left _ hc))
    rw [placeOf_below t home hrest', endOf_append, endOf_of_isPlain _ hplain] at hplace
    obtain rfl : rest' = mid := List.append_cancel_left hplace
    have hbegins : rest' <+: rest := (hmid ▸ List.prefix_append rest' more).trans (List.dropLast_prefix rest)
    exact (List.prefix_append_right_inj home.parts).2 hbegins
  · left
    rw [parent_below home hne', hmid]
    exact ⟨mid ++ rest'.dropLast, List.append_assoc _ _ _⟩

end FileTree

/-- An outcome with the text of its error left out. -/
def FileOutcome.withoutText (o : FileOutcome) : FileOutcome :=
  { o with error := o.error.map fun _ => "" }

namespace Workshop

open FileTree Argot.Path

variable (w : Workshop) (parse : Parser Id) (toForms : Bool)

/-- What becomes of a file that is worked on alone. -/
def alone (f : Path) : FileOutcome :=
  outcomeOf f (w.file parse toForms f).1

/-- Whether a file needs a directory at a place for its product. -/
def Creates (f : Path) (q : Place) : Prop :=
  ∃ output outcome, w.product parse toForms f = some (output, outcome) ∧ w.tree.Makes output q

/-- Whether some of the directories for the product of a file can be made, but not all. -/
def StopsHalfway (f : Path) : Prop :=
  ∃ output outcome, w.product parse toForms f = some (output, outcome) ∧ w.tree.StopsHalfway output.parent

/-- Files that can be worked on apart: each is there, no output is another file, and no output is at the place of another
output or above it. -/
structure Apart (files : List Path) : Prop where
  proper : ∀ f ∈ files, f.Proper
  isFile : ∀ f ∈ files, w.tree.isFile f = .ok true
  places : ∀ f ∈ files, ∀ g ∈ files, w.tree.placeOf f = w.tree.placeOf g → f = g
  home : ∃ home : Path, ∀ f ∈ files, ∀ output, w.outputOf parse toForms f = some output →
    ∃ rest, (∀ c ∈ rest, IsPlain c) ∧ rest ≠ [] ∧ output = home.below rest
  inputs : ∀ f ∈ files, ∀ g ∈ files, f ≠ g → ∀ output, w.outputOf parse toForms f = some output →
    w.tree.placeOf output ≠ w.tree.placeOf g
  outputs : ∀ f ∈ files, ∀ g ∈ files, f ≠ g → ∀ output output', w.outputOf parse toForms f = some output →
    w.outputOf parse toForms g = some output' → ¬output.parts <+: output'.parts

variable {w parse toForms} {files : List Path} {f g output output' : Path} {outcome outcome' : Outcome} {q : Place}

/-- Different files have their outputs at different places. -/
theorem Apart.placeOf_ne (h : Apart w parse toForms files) (hf : f ∈ files) (hg : g ∈ files) (hne : f ≠ g)
    (houtput : w.outputOf parse toForms f = some output) (houtput' : w.outputOf parse toForms g = some output') :
    w.tree.placeOf output ≠ w.tree.placeOf output' := by
  obtain ⟨home, hhome⟩ := h.home
  obtain ⟨rest, hrest, -, rfl⟩ := hhome f hf output houtput
  obtain ⟨rest', hrest', -, rfl⟩ := hhome g hg output' houtput'
  intro hsame
  rw [placeOf_below _ home hrest, placeOf_below _ home hrest'] at hsame
  obtain rfl : rest = rest' := List.append_cancel_left hsame
  exact h.outputs f hf g hg hne _ _ houtput houtput' (List.prefix_refl _)

/-- What is opened for one file lies on no way that is clear for another. -/
theorem Apart.not_on_way (h : Apart w parse toForms files) (hf : f ∈ files) (hg : g ∈ files) (hne : f ≠ g)
    (hopens : Opens w parse toForms f output outcome) (houtput' : w.outputOf parse toForms g = some output')
    {pre more : List String} (hway : output'.parent.parts = pre ++ more) :
    w.tree.placeOf output ≠ endOf (w.tree.startOf output') pre := by
  obtain ⟨hproduct, hwritable⟩ := hopens
  have houtput := outputOf_of_product hproduct
  obtain ⟨home, hhome⟩ := h.home
  obtain ⟨rest, hrest, hnil, rfl⟩ := hhome f hf output houtput
  obtain ⟨rest', hrest', hnil', rfl⟩ := hhome g hg output' houtput'
  intro hplace
  rcases place_on_way hrest' hrest hnil' hnil hway hplace with ⟨more', hown⟩ | hbegins
  · have hclear : w.tree.Clear (w.tree.startOf home) (pre ++ more') := hown ▸ hwritable.clear
    have hask := askable_parent (refusal?_eq_none_iff.1 hwritable.accepted).1
    exact hwritable.unmade ⟨hask, pre, more', hown, hclear.of_append, hplace⟩
  · exact h.outputs f hf g hg hne _ _ houtput houtput' hbegins

/-- No file needs a directory where another is opened. -/
theorem Apart.not_creates (h : Apart w parse toForms files) (hf : f ∈ files) (hg : g ∈ files)
    (hopens : Opens w parse toForms f output outcome) : ¬Creates w parse toForms g (w.tree.placeOf output) := by
  rintro ⟨output', outcome', hproduct', hmakes⟩
  by_cases hfg : f = g
  · subst hfg
    obtain ⟨rfl, -⟩ := hopens.inj hproduct'
    exact hopens.writable.unmade hmakes
  · obtain ⟨-, pre, more, hway, -, hplace⟩ := hmakes
    exact h.not_on_way hf hg hfg hopens (outputOf_of_product hproduct') hway hplace

/-! ## After some of the files -/

variable (w parse toForms)

/-- A workshop with what the files that are done write, make and have recorded, and else as at the start. -/
structure Ahead (done : List Path) (u : Workshop) : Prop where
  opened : ∀ f ∈ done, ∀ output outcome, Opens w parse toForms f output outcome →
    ∃ status, u.tree.entry? (w.tree.placeOf output) = some (.file (w.fitting output outcome) status)
  created : ∀ f ∈ done, ∀ q, Creates w parse toForms f q → u.tree.entry? q = some .directory
  kept : ∀ q, (∀ f ∈ done, ¬Creates w parse toForms f q) →
    (∀ f ∈ done, ∀ output outcome, Opens w parse toForms f output outcome → q ≠ w.tree.placeOf output) →
    u.tree.entry? q = w.tree.entry? q
  recorded : ∀ f ∈ done, ∀ output outcome, Writes w parse toForms f output outcome →
    u.outputs.get? (w.tree.placeOf f) = some output
  unrecorded : ∀ place, (∀ f ∈ done, ∀ output outcome, Writes w parse toForms f output outcome →
    place ≠ w.tree.placeOf f) → u.outputs.get? place = w.outputs.get? place

variable {w parse toForms} {done pending : List Path} {u : Workshop}

/-- A place is made a directory for one of some files, is opened for one of them, or is left alone by all of them. -/
theorem place_cases (w : Workshop) (parse : Parser Id) (toForms : Bool) (done : List Path) (q : Place) :
    (∃ f ∈ done, Creates w parse toForms f q) ∨
      (∃ f ∈ done, ∃ output outcome, Opens w parse toForms f output outcome ∧ q = w.tree.placeOf output) ∨
      (∀ f ∈ done, ¬Creates w parse toForms f q) ∧ ∀ f ∈ done, ∀ output outcome,
        Opens w parse toForms f output outcome → q ≠ w.tree.placeOf output := by
  by_cases hcreated : ∃ f ∈ done, Creates w parse toForms f q
  · exact .inl hcreated
  · by_cases hopened : ∃ f ∈ done, ∃ output outcome, Opens w parse toForms f output outcome ∧ q = w.tree.placeOf output
    · exact .inr (.inl hopened)
    · exact .inr (.inr ⟨fun f hf hcreates => hcreated ⟨f, hf, hcreates⟩, fun f hf output outcome hopens hq =>
        hopened ⟨f, hf, output, outcome, hopens, hq⟩⟩)

theorem Ahead.nil (w : Workshop) (parse : Parser Id) (toForms : Bool) : Ahead w parse toForms [] w where
  opened := nofun
  created := nofun
  kept := fun _ _ _ => rfl
  recorded := nofun
  unrecorded := fun _ _ => rfl

/-- What is a file was opened for one that is done, or was a file at the start. -/
theorem Ahead.isFileAt (h : Ahead w parse toForms done u) (hfile : u.tree.IsFileAt q) :
    (∃ f ∈ done, ∃ output outcome, Opens w parse toForms f output outcome ∧ q = w.tree.placeOf output) ∨
      w.tree.IsFileAt q := by
  rcases place_cases w parse toForms done q with ⟨f, hf, hcreates⟩ | hopened | ⟨hcreated, hopened⟩
  · exact (not_isFileAt_of_directory (h.created f hf q hcreates) hfile).elim
  · exact .inl hopened
  · right
    unfold IsFileAt at hfile ⊢
    rwa [h.kept q hcreated hopened] at hfile

/-- There is as much room for an output as at the start. -/
theorem Ready.fitting_eq (hready : Ready w u pending) (output : Path) (outcome : Outcome) :
    u.fitting output outcome = w.fitting output outcome := by
  unfold Workshop.fitting
  rw [hready.tree.placeOf, fitting_of_room _ _ hready.tree.room]

section Step

variable (hapart : Apart w parse toForms files) (hdone : ∀ g ∈ done, g ∈ files) (hf : f ∈ files) (hnew : f ∉ done)
  (h : Ahead w parse toForms done u) (hready : Ready w u (f :: pending))

include hapart hdone hf hnew h hready

/-- The way of the next file is as clear as at the start. -/
theorem Ahead.clear_iff (houtput : w.outputOf parse toForms f = some output) {parts more : List String}
    (hway : output.parent.parts = parts ++ more) :
    u.tree.Clear (w.tree.startOf output) parts ↔ w.tree.Clear (w.tree.startOf output) parts := by
  constructor
  · exact fun hc => ⟨hc.short, fun pre rest hsplit hfile => hc.noFile pre rest hsplit (hready.tree.file _ hfile)⟩
  · refine fun hc => ⟨hc.short, fun pre rest hsplit hfile => ?_⟩
    rcases h.isFileAt hfile with ⟨g, hg, output', outcome', hopens, hplace⟩ | hthere
    · exact hapart.not_on_way (hdone g hg) hf (fun hgf => hnew (hgf ▸ hg)) hopens houtput
        (hway.trans (by rw [hsplit, List.append_assoc])) hplace.symm
    · exact hc.noFile pre rest hsplit hthere

theorem Ahead.makes_iff (houtput : w.outputOf parse toForms f = some output) :
    u.tree.Makes output q ↔ w.tree.Makes output q := by
  have hstart := hready.tree.startOf output
  constructor
  · rintro ⟨hask, pre, rest, hway, hclear, hq⟩
    rw [hstart] at hclear hq
    exact ⟨hask, pre, rest, hway, (h.clear_iff hapart hdone hf hnew hready houtput hway).1 hclear, hq⟩
  · rintro ⟨hask, pre, rest, hway, hclear, hq⟩
    rw [← hstart] at hclear hq
    refine ⟨hask, pre, rest, hway, ?_, hq⟩
    rw [hstart] at hclear ⊢
    exact (h.clear_iff hapart hdone hf hnew hready houtput hway).2 hclear

omit hready in
/-- A file that is at the place of the next output is still there. -/
theorem Ahead.entry?_of_isFileAt (houtput : w.outputOf parse toForms f = some output)
    (hfile : w.tree.IsFileAt (w.tree.placeOf output)) :
    u.tree.entry? (w.tree.placeOf output) = w.tree.entry? (w.tree.placeOf output) := by
  refine h.kept _ (fun g hg hcreates => ?_) fun g hg output' outcome' hopens => ?_
  · obtain ⟨output', outcome', -, hmakes⟩ := hcreates
    exact hmakes.not_isFileAt hfile
  · exact hapart.placeOf_ne hf (hdone g hg) (fun hfg => hnew (hfg ▸ hg)) houtput (outputOf_of_product hopens.product)

theorem Ahead.writable_iff (hproduct : w.product parse toForms f = some (output, outcome)) :
    u.tree.Writable output ↔ w.tree.Writable output := by
  have houtput := outputOf_of_product hproduct
  have hclear := h.clear_iff hapart hdone hf hnew hready houtput (List.append_nil _).symm
  have hmakes := fun q => h.makes_iff (q := q) hapart hdone hf hnew hready houtput
  have hplace := hready.tree.placeOf output
  constructor
  · rintro ⟨haccepted, hway, hfree, hunmade⟩
    rw [hready.tree.startOf] at hway
    rw [hplace] at hfree hunmade
    refine ⟨haccepted, hclear.1 hway, ?_, fun hm => hunmade ((hmakes _).2 hm)⟩
    -- what barred the place at the start would bar it still
    rcases hbarred : barred (w.tree.entry? (w.tree.placeOf output)) with _ | fault
    · rfl
    · by_cases hfile : w.tree.IsFileAt (w.tree.placeOf output)
      · rw [h.entry?_of_isFileAt hapart hdone hf hnew houtput hfile, hbarred] at hfree
        cases hfree
      · rw [hready.tree.directory _ (directory_of_barred hfile hbarred).2] at hfree
        cases hfree
  · intro hwritable
    refine ⟨hwritable.accepted, ?_, ?_, ?_⟩
    · rw [hready.tree.startOf]
      exact hclear.2 hwritable.clear
    · have hkept := h.kept (w.tree.placeOf output)
        (fun g hg => hapart.not_creates hf (hdone g hg) ⟨hproduct, hwritable⟩)
        (fun g hg output' outcome' hopens => hapart.placeOf_ne hf (hdone g hg) (fun hfg => hnew (hfg ▸ hg)) houtput
          (outputOf_of_product hopens.product))
      rw [hplace, hkept]
      exact hwritable.free
    · rw [hplace, hmakes]
      exact hwritable.unmade

/-- What is written for the next file is told by the workshop at the start. -/
theorem Ahead.ok_iff {result : Except SystemError Unit × FileTree}
    (hproduct : w.product parse toForms f = some (output, outcome))
    (hway : WritesWithWay u.tree output (Text.bytesOf outcome.code) result) :
    result.1 = .ok () ↔ Writes w parse toForms f output outcome := by
  have hfitting : u.tree.fitting (u.tree.placeOf output) (Text.bytesOf outcome.code) = w.fitting output outcome :=
    hready.fitting_eq output outcome
  rw [hway.ok_iff, h.writable_iff hapart hdone hf hnew hready hproduct, hfitting]
  exact ⟨fun hw => ⟨⟨hproduct, hw.1⟩, hw.2⟩, fun hw => ⟨hw.writable, hw.whole⟩⟩

/-- What writing the next product does to the tree. -/
theorem Ahead.step_tree {result : Except SystemError Unit × FileTree} {v : Workshop}
    (hproduct : w.product parse toForms f = some (output, outcome))
    (hway : WritesWithWay u.tree output (Text.bytesOf outcome.code) result) (htree : v.tree = result.2)
    (hrecorded : ∀ g ∈ f :: done, ∀ output outcome, Writes w parse toForms g output outcome →
      v.outputs.get? (w.tree.placeOf g) = some output)
    (hunrecorded : ∀ place, (∀ g ∈ f :: done, ∀ output outcome, Writes w parse toForms g output outcome →
      place ≠ w.tree.placeOf g) → v.outputs.get? place = w.outputs.get? place) :
    Ahead w parse toForms (f :: done) v := by
  have houtput := outputOf_of_product hproduct
  have hmakes := fun q => h.makes_iff (q := q) hapart hdone hf hnew hready houtput
  have hwritable := h.writable_iff hapart hdone hf hnew hready hproduct
  have hplace := hready.tree.placeOf output
  exact {
    opened := fun g hg output' outcome' hopens => by
      rw [htree]
      rcases List.mem_cons.1 hg with rfl | hg
      · obtain ⟨rfl, rfl⟩ := product_inj hproduct hopens.product
        obtain ⟨status, hentry⟩ := hway.written (hwritable.2 hopens.writable)
        rw [hplace] at hentry
        exact ⟨status, hready.fitting_eq output' outcome' ▸ hplace ▸ hentry⟩
      · obtain ⟨status, hentry⟩ := h.opened g hg output' outcome' hopens
        refine ⟨status, (hway.kept _ (fun hm => ?_) fun hw => ?_).trans hentry⟩
        · exact hapart.not_creates (hdone g hg) hf hopens ⟨output, outcome, hproduct, (hmakes _).1 hm⟩
        · exact hapart.placeOf_ne (hdone g hg) hf (fun hgf => hnew (hgf ▸ hg)) (outputOf_of_product hopens.product)
            houtput (hw.2.trans hplace)
    created := fun g hg q hcreates => by
      rw [htree]
      rcases List.mem_cons.1 hg with rfl | hg
      · obtain ⟨output', outcome', hproduct', hm⟩ := hcreates
        obtain ⟨rfl, rfl⟩ := product_inj hproduct hproduct'
        exact hway.made q ((hmakes q).2 hm)
      · exact hway.later.directory q (h.created g hg q hcreates)
    kept := fun q hcreates hopens => by
      rw [htree]
      refine (hway.kept q (fun hm => ?_) fun hw => ?_).trans (h.kept q
        (fun g hg => hcreates g (List.mem_cons_of_mem _ hg)) fun g hg => hopens g (List.mem_cons_of_mem _ hg))
      · exact hcreates f List.mem_cons_self ⟨output, outcome, hproduct, (hmakes q).1 hm⟩
      · exact hopens f List.mem_cons_self output outcome ⟨hproduct, hwritable.1 hw.1⟩ (hw.2.trans hplace)
    recorded := hrecorded
    unrecorded := hunrecorded }

/-- **One more file leaves a workshop that is ahead by one more file.** -/
theorem Ahead.step {result : Except BatchError FileOutcome × Workshop} (hworks : Works u parse toForms f result)
    (hproduct : u.product parse toForms f = w.product parse toForms f) : Ahead w parse toForms (f :: done) result.2 := by
  have hlast : ∀ {P : Path → Prop}, P f → (∀ g ∈ done, P g) → ∀ g ∈ f :: done, P g := fun hPf hP g hg =>
    (List.mem_cons.1 hg).elim (fun hgf => hgf ▸ hPf) (hP g)
  cases hworks with
  | without product =>
    rw [hproduct] at product
    have hopens : ∀ output outcome, ¬Opens w parse toForms f output outcome := fun output outcome =>
      not_opens_of_product_eq_none product
    have hcreates : ∀ q, ¬Creates w parse toForms f q := by
      rintro q ⟨output, outcome, hp, -⟩
      rw [hp] at product
      cases product
    exact {
      opened := hlast (fun output outcome ho => (hopens output outcome ho).elim) h.opened
      created := hlast (fun q hc => (hcreates q hc).elim) h.created
      kept := fun q hc ho => h.kept q (fun g hg => hc g (List.mem_cons_of_mem _ hg)) fun g hg =>
        ho g (List.mem_cons_of_mem _ hg)
      recorded := hlast (fun output outcome hw => (hopens output outcome hw.toOpens).elim) h.recorded
      unrecorded := fun place hw => h.unrecorded place fun g hg => hw g (List.mem_cons_of_mem _ hg) }
  | @failed output outcome e tree product written way =>
    rw [hproduct] at product
    have hwrites : ∀ output' outcome', ¬Writes w parse toForms f output' outcome' := fun output' outcome' hw => by
      obtain ⟨rfl, rfl⟩ := product_inj product hw.product
      cases (h.ok_iff hapart hdone hf hnew hready product way).2 hw
    refine h.step_tree hapart hdone hf hnew hready product way rfl ?_ ?_
    · exact hlast (fun output' outcome' hw => (hwrites output' outcome' hw).elim) h.recorded
    · exact fun place hw => h.unrecorded place fun g hg => hw g (List.mem_cons_of_mem _ hg)
  | @written output outcome place tree product resolved way =>
    rw [hproduct] at product
    have hkey : place = w.tree.placeOf f := by
      rw [resolve_eq_ok (hapart.proper f hf) resolved, hready.tree.placeOf]
    have hwrites : Writes w parse toForms f output outcome :=
      (h.ok_iff hapart hdone hf hnew hready product way).1 rfl
    have hother : ∀ g ∈ done, w.tree.placeOf g ≠ place := fun g hg hsame =>
      hnew (hapart.places g (hdone g hg) f hf (hsame.trans hkey) ▸ hg)
    refine h.step_tree hapart hdone hf hnew hready product way rfl ?_ ?_
    · refine hlast (fun output' outcome' hw => ?_) fun g hg output' outcome' hw => ?_
      · obtain ⟨rfl, -⟩ := product_inj product hw.product
        exact (OrderedMap.get?_insert _ _ _ _).trans (if_pos hkey.symm)
      · exact (OrderedMap.get?_insert _ _ _ _).trans ((if_neg (hother g hg)).trans (h.recorded g hg output' outcome' hw))
    · intro q hw
      have hq : q ≠ place := hkey ▸ hw f List.mem_cons_self output outcome hwrites
      exact (OrderedMap.get?_insert _ _ _ _).trans ((if_neg hq).trans (h.unrecorded q fun g hg =>
        hw g (List.mem_cons_of_mem _ hg)))

/-- What fails to be written ahead and alone fails with the same error, or its directory was left half made. -/
theorem Ahead.failures_alike (hw : w.WellPlaced) {e e' : SystemError} {bytes : List UInt8}
    (hproduct : w.product parse toForms f = some (output, outcome))
    (hahead : (u.tree.writeWithWay output bytes).1 = .error e) (halone : (w.tree.writeWithWay output bytes).1 = .error e') :
    (w.StopsHalfway parse toForms f ∧ e.fault ≠ .nullCharacter ∧ e'.fault ≠ .nullCharacter) ∨ e = e' := by
  obtain ⟨hp, hparts⟩ := proper_output hw (hapart.proper f hf) (plan_of_product hproduct)
  have hclear := h.clear_iff hapart hdone hf hnew hready (outputOf_of_product hproduct) (List.append_nil _).symm
  by_cases hhalf : w.tree.StopsHalfway output.parent
  · obtain ⟨hask, hblocked⟩ := hhalf.blocked hw.rooted hp
    have hblocked' : ¬u.tree.Clear (u.tree.startOf output) output.parent.parts := by
      rw [hready.tree.startOf]
      exact mt hclear.1 hblocked
    have hnull := fault_of_blocked (hready.tree.rooted hw.rooted) hp hask hblocked' hahead
    exact .inl ⟨⟨output, outcome, hproduct, hhalf⟩, hnull, fault_of_blocked hw.rooted hp hask hblocked halone⟩
  · have hsame : (u.tree.writeWithWay output bytes).1 = .error e' := hready.tree.writeWithWay_error hw.rooted hp hparts
      hclear (h.writable_iff hapart hdone hf hnew hready hproduct) hhalf halone
    exact .inr (Except.error.inj (hahead.symm.trans hsame))

/-- **What becomes of the next file is what becomes of it alone**, but for the text of an error where directories were
made before it. -/
theorem Ahead.agrees (hw : w.WellPlaced) {result : Except BatchError FileOutcome × Workshop}
    (hworks : Works u parse toForms f result) (hproduct : u.product parse toForms f = w.product parse toForms f)
    (hverdict : u.verdict parse toForms f = w.verdict parse toForms f) :
    (outcomeOf f result.1).withoutText = (w.alone parse toForms f).withoutText ∧
      (¬w.StopsHalfway parse toForms f → outcomeOf f result.1 = w.alone parse toForms f) := by
  have hsame : outcomeOf f result.1 = w.alone parse toForms f →
      (outcomeOf f result.1).withoutText = (w.alone parse toForms f).withoutText ∧
        (¬w.StopsHalfway parse toForms f → outcomeOf f result.1 = w.alone parse toForms f) :=
    fun he => ⟨congrArg _ he, fun _ => he⟩
  have hproper := hapart.proper f hf
  have halone : Works w parse toForms f (w.file parse toForms f) := works_file hw hproper
  unfold alone at hsame ⊢
  generalize w.file parse toForms f = first at halone hsame ⊢
  cases hworks with
  | without product =>
    rw [hproduct] at product
    cases halone with
    | without _ => exact hsame (congrArg _ hverdict)
    | failed product' _ _ => simp [product] at product'
    | written product' _ _ => simp [product] at product'
  | @failed output outcome e tree product written way =>
    rw [hproduct] at product
    have hok := h.ok_iff hapart hdone hf hnew hready product way
    cases halone with
    | without product' => simp [product] at product'
    | @failed output' outcome' e' tree' product' written' way' =>
      obtain ⟨rfl, rfl⟩ := product_inj product product'
      rcases h.failures_alike hapart hdone hf hnew hready hw product (congrArg Prod.fst written)
        (congrArg Prod.fst written') with ⟨hhalf, hnull, hnull'⟩ | rfl
      · refine ⟨?_, fun hnot => (hnot hhalf).elim⟩
        unfold orRefusal
        rw [if_neg hnull, if_neg hnull']
        rfl
      · exact hsame rfl
    | @written output' outcome' place' tree' product' resolved' way' =>
      obtain ⟨rfl, rfl⟩ := product_inj product product'
      obtain ⟨hwritable, hwhole⟩ := way'.ok_iff.1 rfl
      cases hok.2 ⟨⟨product, hwritable⟩, hwhole⟩
  | @written output outcome place tree product resolved way =>
    rw [hproduct] at product
    have hwrites := (h.ok_iff hapart hdone hf hnew hready product way).1 rfl
    cases halone with
    | without product' => simp [product] at product'
    | @failed output' outcome' e' tree' product' written' way' =>
      obtain ⟨rfl, rfl⟩ := product_inj product product'
      cases way'.ok_iff.2 ⟨hwrites.writable, hwrites.whole⟩
    | @written output' outcome' place' tree' product' resolved' way' =>
      obtain ⟨rfl, rfl⟩ := product_inj product product'
      exact hsame rfl

end Step

/-! ## Whole batches -/

theorem alone_tells (hw : w.WellPlaced) (hp : f.Proper) : Tells w parse toForms f (w.alone parse toForms f) :=
  (works_file hw hp).tells

/-- An outcome of a batch that is as good as that of the file alone. -/
def AsAlone (w : Workshop) (parse : Parser Id) (toForms : Bool) (f : Path) (o : FileOutcome) : Prop :=
  o.withoutText = (w.alone parse toForms f).withoutText ∧
    (¬w.StopsHalfway parse toForms f → o = w.alone parse toForms f)

theorem runFiles_cons (f : Path) (rest : List Path) (u : Workshop) : runFiles parse toForms (f :: rest) u =
    (outcomeOf f (u.file parse toForms f).1 :: (runFiles parse toForms rest (u.file parse toForms f).2).1,
      (runFiles parse toForms rest (u.file parse toForms f).2).2) := rfl

/-- **Every file of a batch becomes what it becomes alone**, and the workshop is ahead by all of them in the end. -/
theorem Ahead.run (hapart : Apart w parse toForms files) (hw : w.WellPlaced) (hrepeats : w.session.Repeats) :
    ∀ (order done : List Path) (u : Workshop), order.Nodup → (∀ f ∈ order, f ∈ files ∧ f ∉ done) →
      (∀ g ∈ done, g ∈ files) → Ahead w parse toForms done u → Ready w u order →
      List.Forall₂ (AsAlone w parse toForms) order (runFiles parse toForms order u).1 ∧
        Ahead w parse toForms (order.reverse ++ done) (runFiles parse toForms order u).2
  | [], done, u, _, _, _, h, _ => ⟨.nil, h⟩
  | f :: rest, done, u, hnodup, horder, hdone, h, hready => by
    obtain ⟨hf, hnew⟩ := horder f List.mem_cons_self
    rw [List.nodup_cons] at hnodup
    have hproper := hapart.proper f hf
    have hisFile := hapart.isFile f hf
    have hproduct : u.product parse toForms f = w.product parse toForms f :=
      hready.product_eq hrepeats List.mem_cons_self hproper hisFile
    have hverdict : u.verdict parse toForms f = w.verdict parse toForms f :=
      hready.verdict_eq hrepeats List.mem_cons_self hproper hisFile
    have hworks : Works u parse toForms f (u.file parse toForms f) :=
      works_file (hready.toContinues.wellPlaced hw) hproper
    have hready' : Ready w (u.file parse toForms f).2 rest := by
      refine hready.step hworks (fun g hg => ?_) fun output houtput g hg => ?_
      · have hgFiles := (horder g (List.mem_cons_of_mem _ hg)).1
        obtain ⟨place, hlocate, hfile⟩ := locate_of_isFile (hapart.isFile g hgFiles)
        rwa [place_of_locate (hapart.proper g hgFiles) hlocate] at hfile
      · refine hapart.inputs f hf g (horder g (List.mem_cons_of_mem _ hg)).1 (fun hfg => hnodup.1 (hfg ▸ hg)) output ?_
        unfold outputOf at houtput ⊢
        rwa [hready.plan_eq hrepeats List.mem_cons_self hproper hisFile] at houtput
    have hstep := h.step hapart hdone hf hnew hready hworks hproduct
    obtain ⟨houtcomes, hahead⟩ := Ahead.run hapart hw hrepeats rest (f :: done) (u.file parse toForms f).2 hnodup.2
      (fun g hg => ⟨(horder g (List.mem_cons_of_mem _ hg)).1, fun hmem => (List.mem_cons.1 hmem).elim
        (fun hgf => hnodup.1 (hgf ▸ hg)) (horder g (List.mem_cons_of_mem _ hg)).2⟩)
      (fun g hg => (List.mem_cons.1 hg).elim (fun hgf => hgf ▸ hf) (hdone g)) hstep hready'
    rw [runFiles_cons]
    refine ⟨.cons (h.agrees hapart hdone hf hnew hready hw hworks hproduct hverdict) houtcomes, ?_⟩
    rw [List.reverse_cons, List.append_assoc]
    exact hahead

/-- What is at a place, with the status of files left out. -/
def contents (t : FileTree) (q : Place) : Option (Option (List UInt8)) :=
  (t.entry? q).map fun e => match e with
    | .directory => none
    | .file bytes _ => some bytes

/-- What is opened has its whole way, so no directory is left half made. -/
theorem Opens.not_stopsHalfway (h : Opens w parse toForms f output outcome) (hw : w.WellPlaced) (hp : f.Proper) :
    ¬w.StopsHalfway parse toForms f := by
  rintro ⟨output', outcome', hproduct, hhalf⟩
  obtain ⟨rfl, rfl⟩ := h.inj hproduct
  obtain ⟨hproper, -⟩ := proper_output hw hp (plan_of_product hproduct)
  exact (hhalf.blocked hw.rooted hproper).2 h.writable.clear

theorem AsAlone.tells {o : FileOutcome} (h : AsAlone w parse toForms f o) (hw : w.WellPlaced) (hp : f.Proper) :
    Tells w parse toForms f o := by
  obtain ⟨hinput, houtput, hsuccess, hopened⟩ : Tells w parse toForms f (w.alone parse toForms f) := alone_tells hw hp
  have hsame := h.1
  unfold FileOutcome.withoutText at hsame
  simp only [FileOutcome.mk.injEq] at hsame
  exact ⟨hsame.1.trans hinput, hsame.2.1 ▸ houtput, hsame.2.2.1 ▸ hsuccess, fun output outcome hopens => by
    rw [h.2 (hopens.not_stopsHalfway hw hp)]
    exact hopened output outcome hopens⟩

theorem Apart.resolve (h : Apart w parse toForms files) (hf : f ∈ files) :
    f.resolve w.tree.base = .ok (w.tree.placeOf f) := by
  obtain ⟨place, hlocate, -⟩ := locate_of_isFile (h.isFile f hf)
  obtain ⟨place', hplace'⟩ := resolve_of_locate hlocate w.tree.base
  rw [hplace', resolve_eq_ok (h.proper f hf) hplace']

theorem wellPlaced_of_sound (ht : w.tree.Sound)
    (hdirectory : ∀ directory, w.settings.outputDirectory = some directory → directory.Proper) : w.WellPlaced :=
  ⟨ht.toRooted, ht.plain_base, hdirectory⟩

/-- Workshops that are ahead by the same files hold and record the same. -/
theorem Ahead.same {done' : List Path} {u' : Workshop} (h : Ahead w parse toForms done u)
    (h' : Ahead w parse toForms done' u') (hsame : ∀ f, f ∈ done ↔ f ∈ done') :
    (∀ q, contents u.tree q = contents u'.tree q) ∧ ∀ place, u.outputs.get? place = u'.outputs.get? place := by
  constructor
  · intro q
    unfold contents
    rcases place_cases w parse toForms done q with ⟨f, hf, hcreates⟩ | ⟨f, hf, output, outcome, hopens, rfl⟩ |
      ⟨hcreated, hopened⟩
    · rw [h.created f hf q hcreates, h'.created f ((hsame f).1 hf) q hcreates]
    · obtain ⟨status, hentry⟩ := h.opened f hf output outcome hopens
      obtain ⟨status', hentry'⟩ := h'.opened f ((hsame f).1 hf) output outcome hopens
      rw [hentry, hentry']
      rfl
    · rw [h.kept q hcreated hopened,
        h'.kept q (fun f hf => hcreated f ((hsame f).2 hf)) fun f hf => hopened f ((hsame f).2 hf)]
  · intro place
    by_cases hrecorded : ∃ f ∈ done, ∃ output outcome, Writes w parse toForms f output outcome ∧
        place = w.tree.placeOf f
    · obtain ⟨f, hf, output, outcome, hwrites, rfl⟩ := hrecorded
      rw [h.recorded f hf output outcome hwrites, h'.recorded f ((hsame f).1 hf) output outcome hwrites]
    · rw [h.unrecorded place fun f hf output outcome hwrites hplace => hrecorded ⟨f, hf, output, outcome, hwrites, hplace⟩,
        h'.unrecorded place fun f hf output outcome hwrites hplace =>
          hrecorded ⟨f, (hsame f).2 hf, output, outcome, hwrites, hplace⟩]

/-- A batch that finds files works on them in their order. -/
theorem exists_run {w : Workshop} (parse : Parser Id) {toForms : Bool} {target : Path} {files : List Path}
    (hfind : w.find target (w.patternsFor toForms) = .ok files) (hworkers : w.settings.workers.isSome) :
    ∃ report u, w.run parse toForms target = (.ok report, u) ∧ report.total = files.length ∧
      report.outcomes = (runFiles parse toForms files w).1.mergeSort outcomeBefore ∧
      u = (runFiles parse toForms files w).2 := by
  have hsome : ¬(!files.isEmpty && w.settings.workers.isNone) = true := by
    simp [Option.isNone_iff_eq_none, Option.isSome_iff_ne_none.1 hworkers]
  refine ⟨{ outcomes := _, total := _ }, _, ?_, rfl, rfl, rfl⟩
  unfold run
  rw [hfind]
  exact if_neg hsome

/-- The parse tree of a source that has nothing in it. -/
def emptyProgram : Tree :=
  .token "program" true 0 0

end Workshop
end Argot
