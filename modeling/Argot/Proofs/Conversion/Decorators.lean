import Argot.Proofs.Conversion.FidelityNotes
import Argot.Proofs.Conversion.Protected
import Argot.Proofs.Vocabulary.Standard
/-!
# Decorators — names go back in one piece with their at sign

The table has the names of decorators with the at sign before them, and so the way back looks for a form with the at sign
before it, while conversion only changes the name.  So a name goes back where an at sign by itself is directly before it,
and stays as its form everywhere else (`decorator_goes_back`).
-/
namespace Argot

open Text

namespace Reverse

variable {forms : List (List Char)} {host : List Char → List CodePoint} {pre w post : List Char}

/-! ## Forms with an at sign -/

/-- A word, perhaps with an at sign before it. -/
def IsDecorative (form : List Char) : Prop :=
  ∃ word, Comment.IsWord word ∧ (form = word ∨ form = '@' :: word)

/-- **An at sign by itself is directly before a part of a text**, and no name goes on after that. -/
def BehindAt (pre post : List Char) : Prop :=
  ∃ p, pre = p ++ ['@'] ∧ p.getLast?.any isNameChar = false ∧ post.head?.any isNameChar = false

/-- A form that reaches into a word goes over all of it. -/
theorem exists_of_fits {b form : List Char} (hw : ∀ c ∈ w, isNameChar c = true)
    (hfits : fits (b ++ (w ++ post)) form = true) (hlen : b.length < form.length) :
    ∃ v x, form = b ++ (w ++ v) ∧ post = v ++ x ∧ x.head?.any isNameChar = false := by
  unfold fits at hfits
  rw [Bool.and_eq_true, List.isPrefixOf_iff_prefix, Bool.not_eq_true'] at hfits
  obtain ⟨⟨x, hx⟩, hafter⟩ := hfits
  rw [← hx, List.drop_left] at hafter
  rcases List.append_eq_append_iff.1 hx with ⟨y, rfl, -⟩ | ⟨y, rfl, hy⟩
  · simp only [List.length_append] at hlen
    omega
  · rcases List.append_eq_append_iff.1 hy with ⟨v, rfl, hv⟩ | ⟨v, hv, rfl⟩
    · exact ⟨v, x, rfl, hv, hafter⟩
    · cases v with
      | nil => exact ⟨[], post, by simp [hv], rfl, hafter⟩
      | cons c v =>
        -- the form would end inside of the word
        have hc : isNameChar c = true := hw c (by rw [hv]; simp)
        rw [List.cons_append, List.head?_cons, Option.any_some, hc] at hafter
        cases hafter

theorem mem_and_fits_of_formAt? {before : Option Char} {cs form : List Char} (h : formAt? forms before cs = some form) :
    before.any isNameChar = false ∧ form ∈ forms ∧ fits cs form = true := by
  unfold formAt? at h
  split at h
  · cases h
  · rename_i hbefore
    exact ⟨by simpa using hbefore, List.mem_of_find?_eq_some h, List.find?_some h⟩

section
variable (hw : Comment.IsWord w) (honly : ∀ form ∈ forms, w <:+: form → form = '@' :: w)
include hw honly

theorem within_of_not_behindAt (hnot : ¬BehindAt pre post) : Within forms none pre (w ++ post) := by
  intro a b form hpre hb hform
  obtain ⟨hbefore, hmem, hfits⟩ := mem_and_fits_of_formAt? hform
  by_contra hlen
  obtain ⟨v, x, rfl, rfl, hafter⟩ := exists_of_fits hw.2 hfits (by omega)
  have hat := honly _ hmem ⟨b, v, by simp⟩
  -- the form is one character longer than the word, and that is the at sign
  have hsum := congrArg List.length hat
  have hpos : 0 < b.length := List.length_pos_iff.2 hb
  simp only [List.length_append, List.length_cons] at hsum
  obtain rfl : v = [] := List.eq_nil_of_length_eq_zero (by omega)
  obtain ⟨c, rfl⟩ := List.length_eq_one_iff.1 (by omega : b.length = 1)
  obtain rfl : c = '@' := (List.cons.inj hat).1
  rw [Option.or_none] at hbefore
  exact hnot ⟨a, hpre, hbefore, hafter⟩

theorem formAt?_of_only (before : Option Char) : formAt? forms before (w ++ post) = none := by
  cases hform : formAt? forms before (w ++ post) with
  | none => rfl
  | some form =>
    obtain ⟨-, hmem, hfits⟩ := mem_and_fits_of_formAt? hform
    obtain ⟨hne, hname⟩ := hw
    by_cases hlen : 0 < form.length
    · obtain ⟨v, x, rfl, -⟩ := exists_of_fits (b := []) hname hfits hlen
      have hat := honly _ hmem ⟨[], v, by simp⟩
      cases w with
      | nil => exact (hne rfl).elim
      | cons c w =>
        have hc : isNameChar '@' = true := (List.cons.inj hat).1 ▸ hname c List.mem_cons_self
        exact absurd hc (by decide)
    · obtain rfl : form = [] := List.eq_nil_of_length_eq_zero (by omega)
      -- no name may go on after a form, be it empty
      cases w with
      | nil => exact (hne rfl).elim
      | cons c w =>
        have hc := hname c List.mem_cons_self
        simp [fits, hc] at hfits

/-- **A word that is a form with an at sign only stays where no at sign by itself is before it.** -/
theorem turns_kept (host : List Char → List CodePoint) (hnot : ¬BehindAt pre post) : ∃ first last,
    Step.Turns (stepsFrom forms host none 0 (pre ++ w ++ post)) pre w post first (CodePoint.ofChars w) last :=
  turns_of_none host (within_of_not_behindAt hw honly hnot) hw.1 hw.2 (formAt?_of_only hw honly pre.getLast?)

end

/-- A form that begins before an at sign ends before it. -/
theorem within_of_at {rest : List Char} (hforms : ∀ form ∈ forms, IsDecorative form) :
    Within forms none pre ('@' :: rest) := by
  intro a b form _ hb hform
  obtain ⟨-, hmem, hfits⟩ := mem_and_fits_of_formAt? hform
  by_contra hlen
  unfold fits at hfits
  rw [Bool.and_eq_true, List.isPrefixOf_iff_prefix] at hfits
  have hbegins : b ++ ['@'] <+: form := by
    refine List.prefix_of_prefix_length_le ⟨rest, by simp⟩ hfits.1 ?_
    rw [List.length_append, List.length_singleton]
    omega
  -- an at sign could only be the first character of the form
  obtain ⟨word, hword, hform⟩ := hforms form hmem
  rcases hform with rfl | rfl
  · exact absurd (hword.2 '@' (hbegins.subset (by simp))) (by decide)
  · cases b with
    | nil => exact hb rfl
    | cons c b =>
      have hin : '@' ∈ word := (List.cons_prefix_cons.1 hbegins).2.subset (by simp)
      exact absurd (hword.2 '@' hin) (by decide)

/-- What fits at an at sign before a word is that word with the at sign. -/
theorem fits_at_iff {form : List Char} (hform : IsDecorative form) (hw : ∀ c ∈ w, isNameChar c = true)
    (hafter : post.head?.any isNameChar = false) : fits ('@' :: w ++ post) form = true ↔ form = '@' :: w := by
  have hat : isNameChar '@' = false := by decide
  obtain ⟨word, hword, rfl | rfl⟩ := hform
  · -- a word does not begin with the at sign
    refine iff_of_false (fun hfits => ?_) fun heq => ?_
    · have hrun := (fits_iff hword.2).1 hfits
      rw [List.cons_append, List.takeWhile_cons, hat] at hrun
      exact hword.1 hrun
    · rw [heq] at hword
      exact absurd (hword.2 '@' List.mem_cons_self) (by decide)
  · have hbehind : fits ('@' :: w ++ post) ('@' :: word) = fits (w ++ post) word := by simp [fits]
    rw [hbehind, fits_iff hword.2, takeWhile_append_stop hw (head?_any_eq_false.1 hafter), List.cons.injEq]
    exact ⟨fun h => ⟨rfl, h⟩, fun h => h.2⟩

/-- **A word that is a form with an at sign goes back in one piece with an at sign by itself before it.** -/
theorem turns_behind_at (host : List Char → List CodePoint) (hforms : ∀ form ∈ forms, IsDecorative form)
    (hw : ∀ c ∈ w, isNameChar c = true) (hmem : '@' :: w ∈ forms) (hbefore : pre.getLast?.any isNameChar = false)
    (hafter : post.head?.any isNameChar = false) : ∃ first last,
    Step.Turns (stepsFrom forms host none 0 (pre ++ '@' :: w ++ post)) pre ('@' :: w) post
      first (host ('@' :: w)) last := by
  refine turns_of_form host (within_of_at hforms) (List.cons_ne_nil _ _) ?_
  unfold formAt?
  rw [hbefore, if_neg Bool.false_ne_true]
  cases hfind : forms.find? (fits ('@' :: w ++ post)) with
  | none => exact absurd ((fits_at_iff (hforms _ hmem) hw hafter).2 rfl) (List.find?_eq_none.1 hfind _ hmem)
  | some form =>
    have hform := hforms form (List.mem_of_find?_eq_some hfind)
    rw [(fits_at_iff hform hw hafter).1 (List.find?_some hfind)]

/-! ## The forms for Angular -/

theorem isNameChar_of_isLatinLetter {c : Char} (h : isLatinLetter c = true) : isNameChar c = true := by
  have hranges : alphanumericRanges = (0x30, 0x39) :: (0x41, 0x5A) :: (0x61, 0x7A) :: alphanumericRanges.drop 3 := rfl
  have hbounds : (0x61 ≤ c.toNat ∧ c.toNat ≤ 0x7A) ∨ (0x41 ≤ c.toNat ∧ c.toNat ≤ 0x5A) := by
    simp only [isLatinLetter, Bool.or_eq_true, Bool.and_eq_true, decide_eq_true_eq] at h
    exact h
  have hcontains : alphanumericRanges.contains c.toNat = true := by
    rw [hranges, Ranges.contains, Ranges.contains, Ranges.contains]
    grind
  simp [isNameChar, isWordChar, isAlphanumeric, hcontains]

theorem isWord_of_isLatin (h : Standard.isLatin w = true) : Comment.IsWord w := by
  unfold Standard.isLatin at h
  rw [Bool.and_eq_true, Bool.not_eq_true', List.all_eq_true] at h
  exact ⟨by simpa using h.1, fun c hc => isNameChar_of_isLatinLetter (h.2 c hc)⟩

/-- The forms that the way back looks for under Angular. -/
def angularForms : List (List Char) :=
  (textPattern (Standard.table "angular")).map String.toList

theorem mem_angularForms {form : List Char} : form ∈ angularForms ↔
    ∃ a, (Standard.table "angular").lookup? (String.ofList form) = some a ∧ a.category ≠ .operator := by
  rw [← Table.isReversible_iff, ← mem_textPattern Standard.settled_table, angularForms, List.mem_map]
  constructor
  · rintro ⟨text, hmem, rfl⟩
    rwa [String.ofList_toList]
  · exact fun hmem => ⟨_, hmem, String.toList_ofList⟩

theorem isDecorative_of_mem_angularForms {form : List Char} (h : form ∈ angularForms) : IsDecorative form := by
  obtain ⟨a, hlookup, -⟩ := mem_angularForms.1 h
  obtain ⟨word, hlatin, hform⟩ := Standard.angular_form hlookup
  rw [String.toList_ofList] at hform
  exact ⟨word, isWord_of_isLatin hlatin, hform⟩

/-- **A word that is a form behind an at sign only**: with the at sign it goes back to a name with one, and no other form
holds it. -/
structure IsDecoratorForm (name word : List Char) : Prop where
  isWord : Comment.IsWord word
  mem : '@' :: word ∈ angularForms
  reverse_eq : (Standard.table "angular").reverse (String.ofList ('@' :: word)) = .text (String.ofList ('@' :: name))
  only : ∀ form ∈ angularForms, word <:+: form → form = '@' :: word

theorem isDecoratorForm_of_entry {name : String} {form : Spelling}
    (h : ((Standard.table "angular").entries .frameworkIdentifier).get? (.text ("@" ++ name)) = some form) :
    ∃ word, form = .text (String.ofList ('@' :: word)) ∧ IsDecoratorForm name.toList word := by
  obtain ⟨word, rfl, hlatin, hlookup, honly⟩ := Standard.decorator_form h
  refine ⟨word, rfl, isWord_of_isLatin hlatin, mem_angularForms.2 ⟨_, hlookup, by simp⟩, ?_, fun form hform hinfix => ?_⟩
  · rw [Table.reverse, hlookup, Spelling.text.injEq, ← String.toList_inj, String.toList_append, String.toList_ofList,
      String.toList_ofList]
    rfl
  · obtain ⟨a, hlookup', -⟩ := mem_angularForms.1 hform
    have hsame := honly _ a hlookup' (by rwa [String.toList_ofList])
    rwa [String.toList_ofList] at hsame

/-! ## Texts without comments -/

section
variable {pre' post' : List Char} (h : Spared pre w post pre' post') {name : List Char} (hw : IsDecoratorForm name w)
include h hw

/-- **Behind an at sign by itself, the form of a decorator goes back to its name.** -/
theorem Spared.goes_back (hbehind : BehindAt pre' post') : ∃ p first last, pre' = p ++ ['@'] ∧
    Step.Turns (backSteps (Standard.table "angular") (pre' ++ w ++ post')) p ('@' :: w) post'
      first (CodePoint.ofChars ('@' :: name)) last ∧
    (convert (Standard.table "angular") (String.ofList (pre ++ w ++ post))).points =
      first ++ CodePoint.ofChars ('@' :: name) ++ last := by
  obtain ⟨p, rfl, hbefore, hafter⟩ := hbehind
  obtain ⟨first, last, hturns⟩ := turns_behind_at
    (fun form => ((Standard.table "angular").reverse (String.ofList form)).points)
    (fun _ => isDecorative_of_mem_angularForms) hw.isWord.2 hw.mem hbefore hafter
  have htext : p ++ '@' :: w ++ post' = p ++ ['@'] ++ w ++ post' := by simp
  rw [hw.reverse_eq, Spelling.points, String.toList_ofList, htext] at hturns
  exact ⟨p, first, last, rfl, hturns, h.points_convert.trans hturns.after_eq⟩

/-- **Elsewhere the form of a decorator stays.** -/
theorem Spared.stays (hnot : ¬BehindAt pre' post') : ∃ first last,
    Step.Turns (backSteps (Standard.table "angular") (pre' ++ w ++ post')) pre' w post' first (CodePoint.ofChars w) last ∧
    (convert (Standard.table "angular") (String.ofList (pre ++ w ++ post))).points =
      first ++ CodePoint.ofChars w ++ last := by
  obtain ⟨first, last, hturns⟩ := turns_kept hw.isWord hw.only
    (fun form => ((Standard.table "angular").reverse (String.ofList form)).points) hnot
  exact ⟨first, last, hturns, h.points_convert.trans hturns.after_eq⟩

end

end Reverse

namespace Forward

open Argot.Part

variable {t : Table} {o : Options} {n : Node} {form : Spelling}

/-! ## Where the form of a token is -/

section
variable {cs tail : List Char} {tree : Tree} {nodes : List Node} {l : List (List Char × Node)}

/-- **Where the form of a token is in the output**: between what the parts of the source before and after it become. -/
theorem exists_place (h : Walked cs tree nodes l tail) (hn : n ∈ nodes) (hleaf : n.isLeaf = true) {g : Twister}
    {out : Outcome} (hrun : (convert t o g (encode cs) tree).1 = .ok out) {w : List Char} (hw : w ≠ [])
    (htreat : treat t o n = .change ⟨n.start, n.stop, .text (String.ofList w)⟩) : ∃ before after pre post,
      Part.source (before ++ [swap (bytesOf n.text) (.text (String.ofList w))] ++ after) = encode cs ∧
      (Part.source before).length = n.start ∧
      Part.target before = .ok (encode pre) ∧ Part.target after = .ok (encode post) ∧
      out.code.toList = pre ++ w ++ post := by
  obtain ⟨before, after, hparts, hplace⟩ := among_of_mem (t := t) (o := o) h hn hleaf g
  rw [nodeParts_of_whole hleaf (stop_eq_of_mem h hn hleaf) htreat] at hparts
  obtain ⟨hsource, htarget⟩ := target_allParts h hrun
  rw [hparts] at hsource htarget
  rw [List.append_assoc] at htarget
  obtain ⟨first, rest, hfirst, hrest, hbytes⟩ := target_append_eq_ok_iff.1 htarget
  obtain ⟨word, last, hword, hlast, rfl⟩ := target_append_eq_ok_iff.1 hrest
  obtain rfl : word = encode w := by
    rw [target, target, bytes_text, String.toList_ofList] at hword
    simpa [bind, Except.bind, pure, Except.pure] using hword.symm
  obtain ⟨pre, post, hcode, rfl, rfl⟩ := exists_of_encode_eq hw hbytes
  exact ⟨before, after, pre, post, hsource, hplace, hfirst, hlast, hcode⟩

end

/-- A decorator has the form of its entry, without the at sign. -/
theorem isDecoratorForm_of_decorated (h : decorated? (Standard.table "angular") o n = some form) :
    ∃ word, form = .text (String.ofList word) ∧ Reverse.IsDecoratorForm n.text.toList word := by
  unfold decorated? at h
  dsimp only at h
  rw [Spelling.text_append] at h
  split at h
  · rename_i hcond
    rw [Bool.and_eq_true, bne_iff_ne] at hcond
    cases hget : ((Standard.table "angular").entries .frameworkIdentifier).get? (.text ("@" ++ n.text)) with
    | none => exact absurd (by simp [Table.forward, hget]) hcond.2
    | some found =>
      obtain ⟨word, rfl, hword⟩ := Reverse.isDecoratorForm_of_entry hget
      have hbehind : Spelling.behindAt? (.text (String.ofList ('@' :: word))) = some (.text (String.ofList word)) := by
        have hpoints := Spelling.ofPoints_points (.text (String.ofList word))
        rw [Spelling.points, String.toList_ofList] at hpoints
        simpa [Spelling.behindAt?, Spelling.points, CodePoint.ofChars] using hpoints
      rw [Table.forward, hget, Option.getD_some, hbehind] at h
      exact ⟨word, (Option.some.inj h).symm, hword⟩
  · cases h

/-! ## The decorator of a component -/

def componentName (i : Nat) : Node :=
  .token .identifier .decorator "identifier" "Component" i (i + 9)

/-- A decorator whose at sign is at the start and whose name is at another place. -/
def componentTree (i : Nat) : Tree :=
  .inner "decorator" 0 (i + 9) none [.token "@" false 0 1, .token "identifier" true i (i + 9)]

theorem treat_componentName (i : Nat) :
    decorated? (Standard.table "angular") { framework := .angular } (componentName i) = some (.text "CoreDecor") ∧
    treat (Standard.table "angular") { framework := .angular } (componentName i) =
      .change ⟨(componentName i).start, (componentName i).stop, "CoreDecor"⟩ := by
  -- the place of the name plays no part in its form
  have hform : decorated? (Standard.table "angular") { framework := .angular } (componentName i) =
      some (.text "CoreDecor") := by
    change decorated? (Standard.table "angular") { framework := .angular } (componentName 1) = _
    decide +kernel
  have hdecide : decide { framework := .angular } (componentName i) = Decision.substitute "decorator name" := rfl
  refine ⟨hform, ?_⟩
  unfold treat treatName
  rw [hdecide]
  dsimp only [Decision.substitute]
  rw [formOf_eq, hform]
  rfl

theorem convert_componentTree {source code : String} {i : Nat}
    (hat : Node.textBetween (bytesOf source) 0 1 = .ok "@")
    (hname : Node.textBetween (bytesOf source) i (i + 9) = .ok "Component")
    (happly : Edit.applyAll (bytesOf source) [⟨i, (i + 9 : Nat), "CoreDecor"⟩] = .ok code) :
    (∃ nodes, Node.ofTree (bytesOf source) (componentTree i) = .ok nodes ∧ componentName i ∈ nodes) ∧
    ∀ g, (convert (Standard.table "angular") { framework := .angular } g (bytesOf source) (componentTree i)).1 =
      .ok ⟨code, []⟩ := by
  let nodes : List Node := [.inner .decorator .other "decorator" 0 (i + 9), .token .operator .decorator "@" "@" 0 1,
    componentName i]
  have hroot : Kind.of "decorator" true false none none = .decorator := by decide
  have hoperator : Kind.of "@" false true none (some "decorator") = .operator := by decide
  have hidentifier : Kind.of "identifier" true true none (some "decorator") = .identifier := by decide
  have hnodes : Node.ofTree (bytesOf source) (componentTree i) = .ok nodes := by
    simp only [componentTree, Tree.inner, Tree.token, Node.ofTree_eq_preorder, Node.preorder, Node.preorderAmong,
      List.isEmpty_cons, List.isEmpty_nil, hroot, hoperator, hidentifier, hat, hname]
    rfl
  refine ⟨⟨nodes, hnodes, by simp [nodes]⟩, fun g => ?_⟩
  have hkeep : visitLeaf (Standard.table "angular") { framework := .angular }
      (.token .operator .decorator "@" "@" 0 1) = ([], []) := by decide +kernel
  have hvisit : visit (Standard.table "angular") { framework := .angular } g nodes =
      ([⟨i, (i + 9 : Nat), "CoreDecor"⟩], [], g) := by
    simp only [nodes, visit_cons, hkeep, visitLeaf_of_change (treat_componentName i).2]
    rfl
  exact convert_eq_ok_of_visit hnodes hvisit happly

/-- **Decorators go back behind an at sign.**  Under Angular, the name of a decorator that gives way to its form goes back
to the name where an at sign by itself is directly before the form, in what is left of the output when generated comments
are taken away, and no name goes on after it.  Where any of this fails, the form stays. -/
theorem decorator_goes_back {source : String} {tree : Tree} {nodes : List Node} (hwf : tree.WellFormed source.toList)
    (hnodes : Node.ofTree (bytesOf source) tree = .ok nodes) {g : Twister} {out : Outcome}
    (hrun : (convert (Standard.table "angular") o g (bytesOf source) tree).1 = .ok out) (hn : n ∈ nodes)
    (hleaf : n.isLeaf = true) (hform : decorated? (Standard.table "angular") o n = some form)
    (htreat : treat (Standard.table "angular") o n = .change ⟨n.start, n.stop, form⟩) :
    ∃ before after pre post word, form = .text (String.ofList word) ∧
      Part.source (before ++ [swap (bytesOf n.text) form] ++ after) = bytesOf source ∧
      (Part.source before).length = n.start ∧
      Part.target before = .ok (encode pre) ∧ Part.target after = .ok (encode post) ∧
      out.code.toList = pre ++ word ++ post ∧
      (¬Comment.opening <:+: out.code.toList → ¬Comment.sayingOpening <:+: out.code.toList →
        Reverse.Spared pre word post pre post) ∧
      ∀ pre' post', Reverse.Spared pre word post pre' post' →
        (Reverse.BehindAt pre' post' → ∃ p first last, pre' = p ++ ['@'] ∧
          Step.Turns (Reverse.backSteps (Standard.table "angular") (pre' ++ word ++ post')) p ('@' :: word) post'
            first (CodePoint.ofChars ('@' :: n.text.toList)) last ∧
          (Reverse.convert (Standard.table "angular") out.code).points =
            first ++ CodePoint.ofChars ('@' :: n.text.toList) ++ last) ∧
        (¬Reverse.BehindAt pre' post' → ∃ first last,
          Step.Turns (Reverse.backSteps (Standard.table "angular") (pre' ++ word ++ post')) pre' word post'
            first (CodePoint.ofChars word) last ∧
          (Reverse.convert (Standard.table "angular") out.code).points =
            first ++ CodePoint.ofChars word ++ last) := by
  obtain ⟨word, rfl, hword⟩ := isDecoratorForm_of_decorated hform
  obtain ⟨nodes', l, tail, hwalked⟩ := exists_walked hwf
  obtain rfl : nodes' = nodes := Except.ok.inj (hwalked.nodes_eq.symm.trans hnodes)
  obtain ⟨before, after, pre, post, hsource, hplace, hbefore, hafter, hcode⟩ :=
    exists_place hwalked hn hleaf hrun hword.isWord.1 htreat
  have hout : out.code = String.ofList (pre ++ word ++ post) := by rw [← hcode, String.ofList_toList]
  refine ⟨before, after, pre, post, word, rfl, hsource, hplace, hbefore, hafter, hcode, ?_, fun pre' post' hspared => ?_⟩
  · rw [hcode]
    exact Reverse.spared_of_plain
  rw [hout]
  exact ⟨hspared.goes_back hword, hspared.stays hword⟩

/-- The decorator of a component directly behind its at sign. -/
theorem component_goes_back :
    (componentTree 1).WellFormed "@Component".toList ∧
    (∀ g, (convert (Standard.table "angular") { framework := .angular } g (bytesOf "@Component") (componentTree 1)).1 =
      .ok ⟨"@CoreDecor", []⟩) ∧
    ∃ first last, (Reverse.convert (Standard.table "angular") "@CoreDecor").points =
      first ++ CodePoint.ofChars "@Component".toList ++ last := by
  have hwf : (componentTree 1).WellFormed "@Component".toList := by decide
  obtain ⟨⟨nodes, hnodes, hmem⟩, hrun⟩ := @convert_componentTree "@Component" "@CoreDecor" 1 (by cbv) (by cbv) (by cbv)
  obtain ⟨hform, htreat⟩ := treat_componentName 1
  obtain ⟨before, after, pre, post, word, hword, -, -, -, -, hcode, hplain, hback⟩ :=
    decorator_goes_back hwf hnodes (hrun (Twister.ofSeed 0)) hmem rfl hform htreat
  refine ⟨hwf, hrun, ?_⟩
  obtain rfl : word = "CoreDecor".toList := by
    rw [Spelling.text.inj hword, String.toList_ofList]
  have hout : "@CoreDecor".toList = '@' :: "CoreDecor".toList := by decide
  have hsource : '@' :: (componentName 1).text.toList = "@Component".toList := by decide
  obtain ⟨rfl, rfl⟩ : pre = ['@'] ∧ post = [] := by
    rw [hout] at hcode
    cases pre with
    | nil =>
      have hform : "CoreDecor".toList = 'C' :: "oreDecor".toList := by decide
      rw [hform] at hcode
      exact absurd (List.cons.inj hcode).1 (by decide)
    | cons c pre =>
      rw [List.cons_append, List.cons_append] at hcode
      obtain ⟨rfl, hrest⟩ := List.cons.inj hcode
      have hlen := congrArg List.length hrest
      simp only [List.length_append] at hlen
      exact ⟨by rw [List.eq_nil_of_length_eq_zero (by omega : pre.length = 0)],
        List.eq_nil_of_length_eq_zero (by omega)⟩
  obtain ⟨p, first, last, -, -, hpoints⟩ := (hback ['@'] [] (hplain (by decide) (by decide))).1 ⟨[], rfl, rfl, rfl⟩
  exact ⟨first, last, hsource ▸ hpoints⟩

/-- **Behind a space the form of a decorator stays**: the at sign and the name are two tokens to conversion, and one form
to the way back. -/
theorem component_stays_behind_space :
    (componentTree 2).WellFormed "@ Component".toList ∧
    (∃ nodes, Node.ofTree (bytesOf "@ Component") (componentTree 2) = .ok nodes ∧ componentName 2 ∈ nodes) ∧
    decorated? (Standard.table "angular") { framework := .angular } (componentName 2) = some (.text "CoreDecor") ∧
    (∀ g, (convert (Standard.table "angular") { framework := .angular } g (bytesOf "@ Component") (componentTree 2)).1 =
      .ok ⟨"@ CoreDecor", []⟩) ∧
    Reverse.convert (Standard.table "angular") "@ CoreDecor" ≠ "@ Component" := by
  obtain ⟨hnodes, hrun⟩ := @convert_componentTree "@ Component" "@ CoreDecor" 2 (by cbv) (by cbv) (by cbv)
  obtain ⟨hform, -⟩ := treat_componentName 2
  refine ⟨by decide, hnodes, hform, hrun, fun hback => ?_⟩
  obtain ⟨word, hword, hforms⟩ := isDecoratorForm_of_decorated hform
  obtain rfl : word = "CoreDecor".toList := by
    rw [Spelling.text.inj hword, String.toList_ofList]
  have hspared : Reverse.Spared "@ ".toList "CoreDecor".toList [] "@ ".toList [] :=
    Reverse.spared_of_plain (by decide) (by decide)
  have hnot : ¬Reverse.BehindAt "@ ".toList [] := by
    rintro ⟨p, hp, -⟩
    have hlast := congrArg List.getLast? hp
    rw [List.getLast?_concat] at hlast
    revert hlast
    decide
  -- the letter D of the form is nowhere in the source
  obtain ⟨first, last, -, hpoints⟩ := hspared.stays hforms hnot
  have hletter : CodePoint.char 'D' ∈ first ++ CodePoint.ofChars "CoreDecor".toList ++ last :=
    List.mem_append_left _ (List.mem_append_right _ (by decide))
  rw [← hpoints] at hletter
  have hcode : String.ofList ("@ ".toList ++ "CoreDecor".toList ++ []) = "@ CoreDecor" := by decide
  rw [hcode, hback] at hletter
  revert hletter
  decide

end Forward
end Argot
