import Argot.Proofs.Files.Batches
import Argot.Proofs.Files.Found
import Argot.Proofs.Text.Utf8
/-!
# LineEnds — what of a file's bytes goes into its output

A source file is read with every line end as a line feed, and what is made of that text is written as it is
(`output_bytes`).  So the output has what conversion makes of the file's own text if no carriage return is in it, and
otherwise only if conversion makes the same of both texts: a file with carriage returns is never copied.
-/
namespace Argot

namespace Text

/-- A text with every line end as one line feed. -/
def withLineFeeds (text : String) : String :=
  String.ofList (unifyNewlines text.toList)

theorem return_not_mem_unifyNewlinesAfter (afterReturn : Bool) (cs : List Char) :
    '\r' ∉ unifyNewlinesAfter afterReturn cs := by
  fun_induction unifyNewlinesAfter afterReturn cs <;> simp_all [eq_comm]

theorem unifyNewlines_of_not_mem : ∀ {cs : List Char}, '\r' ∉ cs → unifyNewlines cs = cs
  | [], _ => rfl
  | c :: rest, h => by
    have ih : unifyNewlinesAfter false rest = rest :=
      unifyNewlines_of_not_mem fun hmem => h (List.mem_cons_of_mem _ hmem)
    have hc : c ≠ '\r' := fun heq => h (heq ▸ List.mem_cons_self)
    unfold unifyNewlines unifyNewlinesAfter
    split <;> simp_all

/-- Line ends are changed in a text with carriage returns, and in no other. -/
theorem withLineFeeds_eq_self_iff {text : String} : withLineFeeds text = text ↔ '\r' ∉ text.toList := by
  constructor
  · intro h
    rw [← h, withLineFeeds, String.toList_ofList]
    exact return_not_mem_unifyNewlinesAfter false _
  · intro h
    rw [withLineFeeds, unifyNewlines_of_not_mem h, String.ofList_toList]

theorem bytesOf_inj {a b : String} : bytesOf a = bytesOf b ↔ a = b := by
  refine ⟨fun h => ?_, congrArg bytesOf⟩
  have ha := decodeString_encode a.toList
  have hb := decodeString_encode b.toList
  unfold bytesOf at h
  rw [h, hb, String.ofList_toList, String.ofList_toList] at ha
  exact (Except.ok.inj ha).symm

end Text

namespace FileTree

variable {t t' : FileTree} {p : Path} {place : Place} {bytes : List UInt8}

/-- A path that leads somewhere leads there in later trees. -/
theorem Later.locate_of_locate (h : Later t t') (hlocate : t.locate p = .ok place) : t'.locate p = .ok place := by
  have hask : Askable p := by
    by_contra hnot
    obtain ⟨f, -, hall⟩ := exists_locate_of_not_askable hnot
    rw [hall] at hlocate
    cases hlocate
  unfold locate at hlocate ⊢
  rw [if_neg (by simp [hask.1]), if_neg (Nat.not_lt.2 hask.2)] at hlocate ⊢
  by_cases hempty : p.toString.isEmpty = true
  · rw [if_pos hempty] at hlocate
    cases hlocate
  · rw [if_neg hempty] at hlocate ⊢
    rw [h.base]
    cases hwalk : t.walk (if p.root.isEmpty then t.base else []) p.parts with
    | error f =>
      rw [hwalk] at hlocate
      cases hlocate
    | ok q =>
      rw [hwalk] at hlocate
      rw [h.walk_ok hwalk]
      exact hlocate

/-- What was written is held. -/
theorem held_of_write (h : (t.write p bytes).1 = .ok ()) : (t.write p bytes).2.held p = .ok bytes := by
  unfold write writeStamped at h ⊢
  rcases hlocate : t.locate p with e | place
  · unfold openToWrite at h
    rw [hlocate] at h
    cases h
  · obtain ⟨status, hopen⟩ := openToWrite_of_locate hlocate (.written t.writes)
    rw [hopen] at h ⊢
    rcases hbarred : barred (t.entry? place) with _ | f
    · rw [hbarred] at h
      dsimp only at h ⊢
      have hfits : t.fitting place bytes = bytes := by
        by_contra hshort
        rw [if_neg hshort] at h
        cases h
      have hput := later_put (barred_eq_none_iff.1 hbarred).1 (t.fitting place bytes) status
      have hlater : Later t { t.put place (.file (t.fitting place bytes) status) with writes := t.writes + 1 } :=
        ⟨hput.base, hput.room, hput.directory, hput.file⟩
      have hentry : entry? (t.put place (.file (t.fitting place bytes) status)) place = some (.file bytes status) := by
        rw [entry?_put, if_pos rfl, hfits]
      exact held_of_locate (hlater.locate_of_locate hlocate) hentry
    · rw [hbarred] at h
      cases h

end FileTree

namespace Workshop

open FileTree

variable {w u : Workshop} {parse : Parser Id} {toForms : Bool} {input output : Path} {o : FileOutcome} {outcome : Outcome}

theorem exists_of_readText {t : FileTree} {code : String} (h : readText t input = .ok code) :
    ∃ bytes text, t.read input = .ok bytes ∧ Text.decodeString bytes = .ok text ∧ code = Text.withLineFeeds text := by
  unfold readText at h
  cases hread : t.read input with
  | error e => simp [hread, bind, Except.bind, Except.mapError] at h
  | ok bytes =>
    rw [hread] at h
    dsimp only [bind, Except.bind, Except.mapError] at h
    cases hdecode : Text.decode bytes with
    | error e => simp [hdecode] at h
    | ok cs =>
      rw [hdecode] at h
      refine ⟨bytes, String.ofList cs, rfl, by rw [Text.decodeString, hdecode]; rfl, ?_⟩
      rw [Text.withLineFeeds, String.toList_ofList]
      exact (Except.ok.inj h).symm

theorem held_of_writeOutput {code : String} (h : w.writeOutput output code = (.ok (), u)) :
    u.tree.held output = .ok (Text.bytesOf code) := by
  unfold writeOutput at h
  rcases hmade : w.tree.makeDirectories output.parent with ⟨e | ⟨⟩, tree⟩
  · rw [hmade] at h
    cases h
  · rw [hmade] at h
    obtain ⟨hwrite, rfl⟩ := Prod.mk.inj h
    exact held_of_write hwrite

theorem eq_of_orRefusal {e : SystemError} {o' : FileOutcome} (h : orRefusal e o' = .ok o) : o = o' := by
  unfold orRefusal at h
  split at h
  · cases h
  · exact (Except.ok.inj h).symm

/-- A success has written what it was made of at the output it names. -/
theorem finish_of_success (h : w.finish input output outcome = (.ok o, u)) (hs : o.success = true) :
    o.output = some output ∧ u.tree.held output = .ok (Text.bytesOf outcome.code) := by
  unfold finish at h
  by_cases herrors : outcome.hasErrors = true
  · rw [if_pos herrors] at h
    cases h
    cases hs
  · rw [if_neg herrors] at h
    rcases hwrite : w.writeOutput output outcome.code with ⟨e | ⟨⟩, w'⟩
    · rw [hwrite] at h
      obtain ⟨hrefused, -⟩ := Prod.mk.inj h
      rw [eq_of_orRefusal hrefused] at hs
      cases hs
    · rw [hwrite] at h
      dsimp only at h
      cases hplace : input.resolve w'.tree.base with
      | error e =>
        rw [hplace] at h
        cases h
      | ok place =>
        rw [hplace] at h
        cases h
        exact ⟨rfl, held_of_writeOutput (u := w') hwrite⟩

/-- A success was planned. -/
theorem plan_of_success (h : w.file parse toForms input = (.ok o, u)) (hs : o.success = true) :
    ∃ output outcome, w.plan parse toForms input = .ok (output, outcome) ∧ o.output = some output ∧
      u.tree.held output = .ok (Text.bytesOf outcome.code) := by
  rw [file_eq] at h
  rcases hplan : w.plan parse toForms input with result | ⟨output, outcome⟩
  · rw [hplan] at h
    obtain ⟨hresult, -⟩ := Prod.mk.inj h
    obtain ⟨message, hfailed⟩ := outcomeOf_of_plan_error hplan
    rw [hresult] at hfailed
    obtain rfl : o = failed input message := hfailed
    cases hs
  · rw [hplan] at h
    exact ⟨output, outcome, rfl, finish_of_success h hs⟩

/-- **What is written for a source is what conversion makes of its text with line feeds for line ends.**  That is what
it makes of the text itself if there are no carriage returns in it, and else only where both come out alike.  A source
that comes out as it was read is copied byte for byte if and only if there are no carriage returns in it. -/
theorem output_bytes (hrun : w.fileToForms parse input = (.ok o, u)) (hs : o.success = true) :
    ∃ bytes text output outcome, w.tree.read input = .ok bytes ∧ Text.decodeString bytes = .ok text ∧
      o.output = some output ∧ (w.session.forward parse (Text.withLineFeeds text)).1 = .ok outcome ∧
      u.tree.held output = .ok (Text.bytesOf outcome.code) ∧
      ('\r' ∉ text.toList → (w.session.forward parse text).1 = .ok outcome) ∧
      (∀ direct, (w.session.forward parse text).1 = .ok direct →
        (u.tree.held output = .ok (Text.bytesOf direct.code) ↔ direct.code = outcome.code)) ∧
      (outcome.code = Text.withLineFeeds text → (u.tree.held output = .ok bytes ↔ '\r' ∉ text.toList)) := by
  have hfile : w.file parse true input = (.ok o, u) := hrun
  obtain ⟨output, outcome, hplan, houtput, hwritten⟩ := plan_of_success hfile hs
  obtain ⟨code, hread, hconverted, -⟩ := readText_of_plan hplan
  obtain ⟨bytes, text, hbytes, htext, rfl⟩ := exists_of_readText hread
  have hsame : ∀ code, u.tree.held output = .ok (Text.bytesOf code) ↔ code = outcome.code := fun code => by
    rw [hwritten, Except.ok.injEq, Text.bytesOf_inj, eq_comm]
  refine ⟨bytes, text, output, outcome, hbytes, htext, houtput, hconverted, hwritten, fun hreturn => ?_,
    fun direct _ => hsame direct.code, fun hcopied => ?_⟩
  · rwa [Text.withLineFeeds_eq_self_iff.2 hreturn] at hconverted
  · rw [← Text.bytesOf_of_decodeString htext, hsame, hcopied, eq_comm]
    exact Text.withLineFeeds_eq_self_iff

/-- A parser for two comments of two bytes each, one at either end of the source. -/
def twoComments : Parser Id := fun _ source =>
  let stop := source.utf8ByteSize
  .node ⟨"program", true, false, false, false, 0, stop, 0, 0, none⟩
    [.node ⟨"comment", true, false, false, false, 0, 2, 0, 0, none⟩ [],
      .node ⟨"comment", true, false, false, false, stop - 2, stop, 1, 0, none⟩ []]

/-- Two comments with a line feed between them. -/
theorem output_bytes_line_feed :
    let w : Workshop := { tree := workDirectory [("a.js", Text.bytesOf "//\n//")] }
    let o : FileOutcome := { input := ⟨"", ["a.js"]⟩, output := some ⟨"", ["a.gachi"]⟩, success := true }
    ∃ u outcome, w.fileToForms twoComments o.input = (.ok o, u) ∧ o.success = true ∧
      (w.session.forward twoComments "//\n//").1 = .ok outcome ∧
      u.tree.held ⟨"", ["a.gachi"]⟩ = .ok (Text.bytesOf outcome.code) := by
  intro w o
  have hrun : w.fileToForms twoComments o.input = (.ok o, (w.fileToForms twoComments o.input).2) :=
    Prod.ext (eq_ok_of_toOption (by decide +kernel)) rfl
  obtain ⟨bytes, text, output, outcome, hbytes, htext, houtput, -, hwritten, hforward, -⟩ := output_bytes hrun rfl
  obtain rfl : bytes = Text.bytesOf "//\n//" := Except.ok.inj (hbytes.symm.trans (eq_ok_of_toOption (by decide +kernel)))
  obtain rfl : text = "//\n//" := Except.ok.inj (htext.symm.trans (Text.decodeString_encode _))
  obtain rfl : output = ⟨"", ["a.gachi"]⟩ := (Option.some.inj houtput).symm
  exact ⟨_, outcome, hrun, rfl, hforward (by decide), hwritten⟩

/-- **The pair of a carriage return and a line feed comes out as a line feed**, though conversion keeps it. -/
theorem carriage_return_is_lost :
    let w : Workshop := { tree := workDirectory [("a.js", Text.bytesOf "//\r\n//")] }
    let o : FileOutcome := { input := ⟨"", ["a.js"]⟩, output := some ⟨"", ["a.gachi"]⟩, success := true }
    ∃ u, w.fileToForms twoComments o.input = (.ok o, u) ∧
      (w.session.forward twoComments "//\r\n//").1 = .ok { code := "//\r\n//" } ∧
      u.tree.read ⟨"", ["a.gachi"]⟩ = .ok (Text.bytesOf "//\n//") ∧
      Text.bytesOf "//\n//" ≠ Text.bytesOf "//\r\n//" := by
  intro w o
  refine ⟨(w.fileToForms twoComments o.input).2, Prod.ext (eq_ok_of_toOption (by decide +kernel)) rfl,
    eq_ok_of_toOption (by decide +kernel), eq_ok_of_toOption (by decide +kernel), by decide +kernel⟩

end Workshop
end Argot
