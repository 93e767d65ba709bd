import Argot.Proofs.Conversion.Stripping
/-!
# Decoration — what is left of a decorated text

A decorated text is the characters of a text with decorations put in between.  Behind a decoration stands a space, or a
line end and an indentation.  Of the latter, stripping takes the spaces and tabs after the line end, which is less than the
indentation if that holds other white space, and more if the text itself goes on with a space or a tab
(`replaceAll_decorated`).  The text is left as it was just if neither happens (`left_eq_plain_iff`).
-/
namespace Argot
namespace Comment

open Text Matcher

/-- What a decoration ends with. -/
def sayingEnding : List Char := " ♂ */".toList

/-- A decoration of a text; that of a declaration which begins its line repeats the indentation of the line. -/
structure Decoration where
  saying : List Char
  indent? : Option (List Char)
  onLine : ∀ c ∈ saying, Comment.onLine c = true
  mark_notMem : '♂' ∉ saying
  slash_notMem : '/' ∉ saying
  indent_slash_notMem : ∀ indent ∈ indent?, '/' ∉ indent

namespace Decoration

variable (d : Decoration)

def comment : List Char :=
  sayingOpening ++ (d.saying ++ sayingEnding)

/-- What stands between the comment and the text after it. -/
def trail : List Char :=
  match d.indent? with
  | none => [' ']
  | some indent => '\n' :: indent

theorem comment_eq : ∃ body, d.comment = '/' :: '*' :: ' ' :: '♂' :: (body ++ ['/']) ∧ '/' ∉ body := by
  have hfront : sayingOpening = ['/', '*', ' ', '♂', ' '] := by decide
  have hback : sayingEnding = " ♂ *".toList ++ ['/'] := by decide
  have hslash : '/' ∉ " ♂ *".toList := by decide
  refine ⟨' ' :: (d.saying ++ " ♂ *".toList), ?_, ?_⟩
  · rw [comment, hfront, hback]
    simp only [List.cons_append, List.nil_append, List.append_assoc]
  · rw [List.mem_cons, List.mem_append]
    exact fun h => h.elim (by decide) fun h => h.elim d.slash_notMem hslash

theorem slash_notMem_trail : '/' ∉ d.trail := by
  have h := d.indent_slash_notMem
  unfold trail
  cases hindent : d.indent? with
  | none => simp
  | some indent => simpa using h indent hindent

theorem head?_trail : d.trail.head? = some ' ' ∨ d.trail.head? = some '\n' := by
  unfold trail
  cases d.indent? with
  | none => exact .inl rfl
  | some indent => exact .inr rfl

/-- **The matcher for decorations takes a whole decoration**, with the white space behind it that it looks for. -/
theorem matcher_eq_some {z y : List Char} (hz : IsTrail z y) :
    decorationMatcher (d.comment ++ (z ++ y)) = some (d.comment ++ z).length := by
  have hmatcher : decorationMatcher = andThen (word sayingOpening) (upTo Comment.onLine decorationEnd) := by
    unfold decorationMatcher
    rw [sequence_cons, sequence_singleton]
    rfl
  have hends : sayingEnding = ' ' :: '♂' :: " */".toList := by decide
  rw [hmatcher, comment, List.append_assoc, List.append_assoc, List.append_assoc, List.append_assoc]
  refine andThen_eq_some_iff.2 ⟨_, _, word_append _ _, ?_, List.length_append⟩
  rw [List.drop_left]
  refine upTo_eq_some_iff.2 ⟨d.saying, sayingEnding ++ (z ++ y), _, rfl,
    decorationEnd_eq_some_iff.2 ⟨z, y, hz, rfl, rfl⟩, List.length_append, d.onLine, fun a b hab hb => ?_⟩
  have hmark : '♂' ∉ b := fun h => d.mark_notMem (hab ▸ List.mem_append_right a h)
  cases hend : decorationEnd (b ++ (sayingEnding ++ (z ++ y))) with
  | none => rfl
  | some k =>
    -- an earlier end would put its mark into the saying
    obtain ⟨z', y', -, hsplit, -⟩ := decorationEnd_eq_some_iff.1 hend
    change b ++ (sayingEnding ++ (z ++ y)) = sayingEnding ++ (z' ++ y') at hsplit
    rw [hends] at hsplit
    match b, hb, hmark, hsplit with
    | [c], _, _, hsplit => exact absurd (List.cons.inj (List.cons.inj hsplit).2).1 (by decide)
    | c :: e :: b, _, hmark, hsplit =>
      obtain rfl : e = '♂' := (List.cons.inj (List.cons.inj hsplit).2).1
      exact (hmark (by simp)).elim

end Decoration

/-- A piece of a decorated text: a character of the text itself, or a decoration. -/
inductive Segment where
  | char (c : Char)
  | decoration (d : Decoration)

namespace Segment

def plain : List Segment → List Char
  | [] => []
  | char c :: ps => c :: plain ps
  | decoration _ :: ps => plain ps

def decorated : List Segment → List Char
  | [] => []
  | char c :: ps => c :: decorated ps
  | decoration d :: ps => d.comment ++ (d.trail ++ decorated ps)

/-- The indentations that the decorations repeat, in order. -/
def indents : List Segment → List (Option (List Char))
  | [] => []
  | char _ :: ps => indents ps
  | decoration d :: ps => d.indent? :: indents ps

variable {ps : List Segment}

@[simp] theorem plain_chars (ps : List Segment) : ∀ (cs : List Char), plain (cs.map char ++ ps) = cs ++ plain ps
  | [] => rfl
  | c :: cs => congrArg (c :: ·) (plain_chars ps cs)

@[simp] theorem decorated_chars (ps : List Segment) :
    ∀ (cs : List Char), decorated (cs.map char ++ ps) = cs ++ decorated ps
  | [] => rfl
  | c :: cs => congrArg (c :: ·) (decorated_chars ps cs)

@[simp] theorem indents_chars (ps : List Segment) : ∀ (cs : List Char), indents (cs.map char ++ ps) = indents ps
  | [] => rfl
  | _ :: cs => indents_chars ps cs

/-! ## Openings of the text itself -/

/-- What a decorated text begins with, up to a slash, the text itself begins with. -/
theorem prefix_plain : ∀ {ps : List Segment} {m : List Char}, '/' ∉ m → m <+: decorated ps → m <+: plain ps
  | _, [], _, _ => List.nil_prefix
  | [], _ :: _, _, h => h
  | char c :: ps, d :: m, hm, h => by
    obtain ⟨rfl, hrest⟩ := List.cons_prefix_cons.1 h
    exact List.cons_prefix_cons.2 ⟨rfl, prefix_plain (fun hin => hm (List.mem_cons_of_mem _ hin)) hrest⟩
  | decoration d :: ps, e :: m, hm, h => by
    obtain ⟨body, hbody, -⟩ := d.comment_eq
    rw [decorated, hbody] at h
    obtain ⟨rfl, -⟩ := List.cons_prefix_cons.1 h
    exact (hm List.mem_cons_self).elim

theorem prefix_plain_cons {c : Char} {m : List Char} (hm : '/' ∉ m) (h : '/' :: m <+: c :: decorated ps) :
    '/' :: m <+: c :: plain ps := by
  obtain ⟨rfl, hrest⟩ := List.cons_prefix_cons.1 h
  exact List.cons_prefix_cons.2 ⟨rfl, prefix_plain hm hrest⟩

/-- What begins with a slash does not begin before one. -/
theorem infix_of_infix_append {m b : List Char} : ∀ {a : List Char}, '/' ∉ a → '/' :: m <:+: a ++ b → '/' :: m <:+: b
  | [], _, h => h
  | c :: a, ha, h => by
    rcases List.infix_cons_iff.1 h with hpre | hin
    · obtain ⟨rfl, -⟩ := List.cons_prefix_cons.1 hpre
      exact (ha List.mem_cons_self).elim
    · exact infix_of_infix_append (fun hmem => ha (List.mem_cons_of_mem _ hmem)) hin

/-- **The opening of an annotation in a decorated text stands in the text itself.** -/
theorem opening_infix_plain : ∀ {ps : List Segment}, opening <:+: decorated ps → opening <:+: plain ps
  | [], h => h
  | char c :: ps, h => by
    rcases List.infix_cons_iff.1 h with hpre | hin
    · exact (prefix_plain_cons (m := "* GACHI:".toList) (by decide) hpre).isInfix
    · exact (opening_infix_plain hin).trans (List.suffix_cons c _).isInfix
  | decoration d :: ps, h => by
    have hopening : opening = '/' :: '*' :: ' ' :: "GACHI:".toList := by decide
    obtain ⟨body, hbody, hslash⟩ := d.comment_eq
    have hbehind : opening <:+: d.trail ++ decorated ps := by
      rw [decorated, hbody, hopening] at h
      rw [hopening]
      simp only [List.cons_append, List.append_assoc, List.nil_append] at h
      rcases List.infix_cons_iff.1 h with hpre | hin
      · simp at hpre
      · have hin := infix_of_infix_append (a := '*' :: ' ' :: '♂' :: body) (by simpa using hslash) hin
        rcases List.infix_cons_iff.1 hin with hpre | hin
        · -- the slash that closes the comment is followed by white space
          rcases d.head?_trail with htrail | htrail <;>
            obtain ⟨rest, hrest⟩ := List.head?_eq_some_iff.1 htrail <;> simp [hrest] at hpre
        · exact hin
    have hin : opening <:+: decorated ps := infix_of_infix_append d.slash_notMem_trail hbehind
    rw [plain]
    exact opening_infix_plain hin

/-! ## What stripping leaves -/

/-- **What is left of a decorated text.**  Behind a line end that was taken, spaces and tabs are taken too. -/
def left : (atLineStart : Bool) → List Segment → List Char
  | _, [] => []
  | atLineStart, char c :: ps => if atLineStart && isIndent c then left true ps else c :: left false ps
  | _, decoration d :: ps =>
    match d.indent? with
    | none => left false ps
    | some indent => indent.dropWhile isIndent ++ left (indent.all isIndent) ps

theorem isTrail_run (cs : List Char) : IsTrail ('\n' :: cs.takeWhile isIndent) (cs.dropWhile isIndent) := by
  obtain ⟨y, hsplit, hrun, hstop⟩ := exists_run isIndent cs
  have hy : y = cs.dropWhile isIndent :=
    List.append_cancel_left (hsplit.symm.trans List.takeWhile_append_dropWhile.symm)
  exact .inr ⟨_, rfl, hrun, hy ▸ hstop⟩

theorem decorationMatcher_eq_none {cs : List Char} (h : ¬sayingOpening <+: cs) : decorationMatcher cs = none := by
  cases hm : decorationMatcher cs with
  | none => rfl
  | some k =>
    obtain ⟨x, z, y, -, rfl, -⟩ := decorationMatcher_eq_some hm
    rw [List.append_assoc] at h
    exact (h (List.prefix_append _ _)).elim

theorem replaceAll_of_slash_notMem (rest : List Char) : ∀ {cs : List Char}, '/' ∉ cs →
    replaceAll decorationMatcher [] (cs ++ rest) = cs ++ replaceAll decorationMatcher [] rest
  | [], _ => rfl
  | c :: cs, h => by
    have hnone : decorationMatcher (c :: (cs ++ rest)) = none := by
      refine decorationMatcher_eq_none fun hpre => h ?_
      have hslash : sayingOpening = '/' :: "* ♂ ".toList := by decide
      rw [hslash] at hpre
      exact (List.cons_prefix_cons.1 hpre).1 ▸ List.mem_cons_self
    rw [List.cons_append, replaceAll_cons hnone,
      replaceAll_of_slash_notMem rest fun hmem => h (List.mem_cons_of_mem _ hmem), List.cons_append]

theorem replaceAll_decoration_append (d : Decoration) {z y : List Char} (hz : IsTrail z y) :
    replaceAll decorationMatcher [] (d.comment ++ (z ++ y)) = replaceAll decorationMatcher [] y := by
  have hne : d.comment ++ z ≠ [] := by
    obtain ⟨body, hbody, -⟩ := d.comment_eq
    simp [hbody]
  have hm := d.matcher_eq_some hz
  rw [← List.append_assoc] at hm ⊢
  exact replaceAll_append hne hm

theorem replaceAll_decoration_cons (d : Decoration) (rest : List Char) :
    replaceAll decorationMatcher [] (d.comment ++ (d.trail ++ rest)) =
      match d.indent? with
      | none => replaceAll decorationMatcher [] rest
      | some indent => indent.dropWhile isIndent ++ replaceAll decorationMatcher []
          (if indent.all isIndent then rest.dropWhile isIndent else rest) := by
  have hslash := d.indent_slash_notMem
  unfold Decoration.trail
  cases hindent : d.indent? with
  | none => exact replaceAll_decoration_append d (.inl rfl)
  | some indent =>
    have hrun : '\n' :: indent ++ rest =
        '\n' :: (indent ++ rest).takeWhile isIndent ++ (indent ++ rest).dropWhile isIndent := by
      rw [List.cons_append, List.cons_append, List.takeWhile_append_dropWhile]
    dsimp only
    rw [hrun, replaceAll_decoration_append d (isTrail_run _)]
    have hnotMem : '/' ∉ indent.dropWhile isIndent :=
      fun h => hslash indent hindent ((List.dropWhile_sublist _).subset h)
    rw [← replaceAll_of_slash_notMem _ hnotMem, List.dropWhile_append]
    by_cases hall : indent.all isIndent = true
    · have hnil : indent.dropWhile isIndent = [] := List.dropWhile_eq_nil_iff.2 fun c hc => List.all_eq_true.1 hall c hc
      simp [hall, hnil]
    · have hne : indent.dropWhile isIndent ≠ [] := fun hnil =>
        hall (List.all_eq_true.2 fun c hc => List.dropWhile_eq_nil_iff.1 hnil c hc)
      simp [hall, hne]

/-- **What the matcher for decorations leaves of a decorated text.** -/
theorem replaceAll_decorated : ∀ {ps : List Segment} (atLineStart : Bool), ¬sayingOpening <:+: plain ps →
    replaceAll decorationMatcher [] (if atLineStart then (decorated ps).dropWhile isIndent else decorated ps) =
      left atLineStart ps
  | [], atLineStart, _ => by cases atLineStart <;> rfl
  | char c :: ps, atLineStart, h => by
    have hrest : ¬sayingOpening <:+: plain ps := fun hin => h (hin.trans (List.suffix_cons c _).isInfix)
    have hnone : decorationMatcher (c :: decorated ps) = none := by
      refine decorationMatcher_eq_none fun hpre => h ?_
      exact (prefix_plain_cons (m := "* ♂ ".toList) (by decide) hpre).isInfix
    have hkeep : replaceAll decorationMatcher [] (c :: decorated ps) = c :: left false ps := by
      rw [replaceAll_cons hnone]
      exact congrArg (c :: ·) (replaceAll_decorated false hrest)
    cases atLineStart with
    | false => exact hkeep
    | true =>
      have hskip := replaceAll_decorated true hrest
      rw [if_pos rfl] at hskip ⊢
      rw [decorated, left, List.dropWhile_cons]
      cases isIndent c with
      | false => exact hkeep
      | true => exact hskip
  | decoration d :: ps, atLineStart, h => by
    -- the comment begins with no white space, so nothing is taken before it
    have hstart : (if atLineStart then (decorated (decoration d :: ps)).dropWhile isIndent
        else decorated (decoration d :: ps)) = d.comment ++ (d.trail ++ decorated ps) := by
      obtain ⟨body, hbody, -⟩ := d.comment_eq
      have hslash : isIndent '/' = false := by decide
      rw [decorated, hbody]
      cases atLineStart <;> simp [hslash]
    rw [hstart, replaceAll_decoration_cons, left]
    cases d.indent? with
    | none => exact replaceAll_decorated false h
    | some indent => exact congrArg (indent.dropWhile isIndent ++ ·) (replaceAll_decorated (indent.all isIndent) h)

/-! ## Texts that are left as they were -/

/-- Spaces and tabs make all indentations that decorations repeat. -/
def Tabbed (ps : List Segment) : Prop :=
  ∀ indent, some indent ∈ indents ps → ∀ c ∈ indent, isIndent c = true

/-- **Behind a decoration on a line of its own, the text goes on with no space or tab of its own.** -/
def Flush : List Segment → Prop
  | [] => True
  | char _ :: ps => Flush ps
  | decoration d :: ps => (d.indent? ≠ none → ∀ c ∈ (decorated ps).head?, isIndent c = false) ∧ Flush ps

theorem flush_chars (ps : List Segment) : ∀ (cs : List Char), Flush (cs.map char ++ ps) ↔ Flush ps
  | [] => Iff.rfl
  | _ :: cs => flush_chars ps cs

theorem tabbed_char_iff {c : Char} : Tabbed (char c :: ps) ↔ Tabbed ps := Iff.rfl

theorem tabbed_decoration_iff {d : Decoration} :
    Tabbed (decoration d :: ps) ↔ (∀ indent ∈ d.indent?, ∀ c ∈ indent, isIndent c = true) ∧ Tabbed ps := by
  constructor
  · intro h
    exact ⟨fun indent hd => h indent (List.mem_cons.2 (.inl (Option.mem_def.1 hd).symm)),
      fun indent hin => h indent (List.mem_cons_of_mem _ hin)⟩
  · rintro ⟨hd, h⟩ indent hin
    rcases List.mem_cons.1 hin with heq | hin
    · exact hd indent heq.symm
    · exact h indent hin

theorem head?_decoration (d : Decoration) (ps : List Segment) :
    ∀ c ∈ (decorated (decoration d :: ps)).head?, isIndent c = false := by
  obtain ⟨body, hbody, -⟩ := d.comment_eq
  intro c hc
  rw [decorated, hbody] at hc
  obtain rfl : '/' = c := by simpa using hc
  decide

theorem head?_decorated (h : ∀ c ∈ (plain ps).head?, isIndent c = false) :
    ∀ c ∈ (decorated ps).head?, isIndent c = false := by
  cases ps with
  | nil => exact h
  | cons s ps =>
    cases s with
    | char c => exact h
    | decoration d => exact head?_decoration d ps

/-- What is left holds as many characters beside spaces and tabs as the text, and those of other indentations. -/
theorem countP_left : ∀ (ps : List Segment) (atLineStart : Bool),
    (plain ps).countP (fun c => !isIndent c) ≤ (left atLineStart ps).countP (fun c => !isIndent c) ∧
      ((left atLineStart ps).countP (fun c => !isIndent c) = (plain ps).countP (fun c => !isIndent c) → Tabbed ps)
  | [], _ => ⟨Nat.le_refl _, fun _ _ h => by cases h⟩
  | char c :: ps, atLineStart => by
    have hfalse := countP_left ps false
    have htrue := countP_left ps true
    rw [plain, left, tabbed_char_iff]
    cases hc : isIndent c with
    | false =>
      rw [Bool.and_false]
      simp only [Bool.false_eq_true, if_false, List.countP_cons, hc, Bool.not_false, if_true]
      exact ⟨Nat.succ_le_succ hfalse.1, fun h => hfalse.2 (Nat.succ.inj h)⟩
    | true =>
      cases atLineStart with
      | false => simpa [List.countP_cons, hc] using hfalse
      | true => simpa [List.countP_cons, hc] using htrue
  | decoration d :: ps, atLineStart => by
    rw [tabbed_decoration_iff, plain, left]
    cases d.indent? with
    | none => simpa using countP_left ps false
    | some indent =>
      obtain ⟨hle, htabbed⟩ := countP_left ps (indent.all isIndent)
      dsimp only
      rw [List.countP_append]
      refine ⟨by omega, fun h => ⟨?_, htabbed (by omega)⟩⟩
      -- a character that is left over from the indentation would count
      have hzero : (indent.dropWhile isIndent).countP (fun c => !isIndent c) = 0 := by omega
      have hnil : indent.dropWhile isIndent = [] := by
        cases hdrop : indent.dropWhile isIndent with
        | nil => rfl
        | cons c rest =>
          have hhead := List.head?_dropWhile_not isIndent indent
          rw [hdrop] at hhead hzero
          have hc : isIndent c = false := hhead
          rw [List.countP_cons, hc] at hzero
          simp at hzero
      rintro _ ⟨⟩
      exact fun c hc => List.dropWhile_eq_nil_iff.1 hnil c hc

/-- Where only spaces and tabs make the indentations, what is left is no longer than the text, and as long just if no
space or tab of the text is taken. -/
theorem length_left : ∀ {ps : List Segment} (atLineStart : Bool), Tabbed ps →
    (left atLineStart ps).length ≤ (plain ps).length ∧ ((left atLineStart ps).length = (plain ps).length →
      Flush ps ∧ (atLineStart = true → ∀ c ∈ (decorated ps).head?, isIndent c = false))
  | [], _, _ => ⟨Nat.le_refl _, fun _ => ⟨trivial, fun _ _ h => by cases h⟩⟩
  | char c :: ps, atLineStart, h => by
    obtain ⟨hle, heq⟩ := @length_left ps false h
    obtain ⟨hle', -⟩ := @length_left ps true h
    rw [plain, left]
    by_cases htaken : (atLineStart && isIndent c) = true
    · rw [if_pos htaken, List.length_cons]
      exact ⟨by omega, fun h => by omega⟩
    · rw [if_neg htaken, List.length_cons, List.length_cons]
      refine ⟨by omega, fun hlen => ⟨(heq (by omega)).1, fun hstart e he => ?_⟩⟩
      obtain rfl : c = e := by simpa [decorated] using he
      simpa [hstart] using htaken
  | decoration d :: ps, atLineStart, h => by
    obtain ⟨hindent, hrest⟩ := tabbed_decoration_iff.1 h
    have hhead := head?_decoration d ps
    rw [plain, left, Flush]
    cases hd : d.indent? with
    | none =>
      obtain ⟨hle, heq⟩ := length_left false hrest
      exact ⟨hle, fun hlen => ⟨⟨fun hne => (hne rfl).elim, (heq hlen).1⟩, fun _ => hhead⟩⟩
    | some indent =>
      have hall : ∀ c ∈ indent, isIndent c = true := hindent indent hd
      have hnil : indent.dropWhile isIndent = [] := List.dropWhile_eq_nil_iff.2 fun c hc => hall c hc
      obtain ⟨hle, heq⟩ := length_left true hrest
      dsimp only
      rw [hnil, List.all_eq_true.2 hall, List.nil_append]
      exact ⟨hle, fun hlen => ⟨⟨fun _ => (heq hlen).2 rfl, (heq hlen).1⟩, fun _ => hhead⟩⟩

theorem left_of_flush : ∀ {ps : List Segment} {atLineStart : Bool}, Tabbed ps → Flush ps →
    (atLineStart = true → ∀ c ∈ (decorated ps).head?, isIndent c = false) → left atLineStart ps = plain ps
  | [], _, _, _, _ => rfl
  | char c :: ps, atLineStart, htabbed, hflush, hhead => by
    have hc : ¬(atLineStart && isIndent c) = true := by
      intro h
      obtain ⟨hstart, hc⟩ := Bool.and_eq_true_iff.1 h
      rw [hhead hstart c rfl] at hc
      cases hc
    have hrest : left false ps = plain ps := left_of_flush htabbed hflush (by simp)
    rw [left, if_neg hc, hrest, plain]
  | decoration d :: ps, atLineStart, htabbed, hflush, _ => by
    obtain ⟨hindent, hrest⟩ := tabbed_decoration_iff.1 htabbed
    obtain ⟨hhead, hflush⟩ := hflush
    rw [left, plain]
    cases hd : d.indent? with
    | none => exact left_of_flush hrest hflush (by simp)
    | some indent =>
      have hall : ∀ c ∈ indent, isIndent c = true := hindent indent hd
      have hnil : indent.dropWhile isIndent = [] := List.dropWhile_eq_nil_iff.2 fun c hc => hall c hc
      dsimp only
      rw [hnil, List.nil_append]
      exact left_of_flush hrest hflush fun _ => hhead (by simp [hd])

/-- **A decorated text is left as it was just where its decorations repeat spaces and tabs only** and no space or tab of
the text comes behind them. -/
theorem left_eq_plain_iff : left false ps = plain ps ↔ Tabbed ps ∧ Flush ps := by
  constructor
  · intro h
    have htabbed : Tabbed ps := (countP_left ps false).2 (by rw [h])
    exact ⟨htabbed, ((length_left false htabbed).2 (by rw [h])).1⟩
  · rintro ⟨htabbed, hflush⟩
    exact left_of_flush htabbed hflush (by simp)

/-- **Stripping a decorated text**, without openings of its own, gives the text back just in that case. -/
theorem stripChars_decorated_iff (hopening : ¬opening <:+: plain ps) (hsaying : ¬sayingOpening <:+: plain ps) :
    stripChars (decorated ps) = plain ps ↔ Tabbed ps ∧ Flush ps := by
  have hannotations : replaceAll annotationMatcher [] (decorated ps) = decorated ps :=
    replaceAll_annotation fun h => hopening (opening_infix_plain h)
  have hleft : replaceAll decorationMatcher [] (decorated ps) = left false ps := replaceAll_decorated false hsaying
  unfold stripChars
  rw [hannotations, hleft, left_eq_plain_iff]

end Segment
end Comment
end Argot
