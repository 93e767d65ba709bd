import Argot.Json.Reader
import Argot.Json.Writer
import Argot.OrderedMap
import Mathlib.Data.List.Nodup
/-!
# ReadsBack — what is written reads back

A string reads back whatever characters and halves it holds (`readStringFrom_write`).  An object does so too if its
values do, since its keys are distinct and only white space stands between its parts (`readMembers_writeMembers`).  By
induction on a value of texts and objects, the reader undoes the writer (`read_write`).
-/
namespace Argot
namespace Json

/-! ## Strings -/

theorem hexQuad?_hexDigits {n : Nat} (hn : n < 0x20) (more : List CodePoint) :
    hexQuad? (CodePoint.ofChars (Text.hexDigits 4 n) ++ more) = some n := by
  have hall : ∀ n : Fin 0x20, hexQuad? (CodePoint.ofChars (Text.hexDigits 4 n.val)) = some n.val := by decide
  have htake : (CodePoint.ofChars (Text.hexDigits 4 n) ++ more).take 4
      = (CodePoint.ofChars (Text.hexDigits 4 n)).take 4 := by
    simp [CodePoint.ofChars, Text.hexDigits]
  rw [← hall ⟨n, hn⟩]
  unfold hexQuad?
  rw [htake]

/-- The escape of a control character gives it back, as long as the string goes on. -/
theorem codePointEscape_hexDigits {c : Char} (hc : c.toNat < 0x20) {more : List CodePoint} (hmore : more ≠ []) :
    codePointEscape (.char 'u' :: CodePoint.ofChars (Text.hexDigits 4 c.toNat) ++ more) = .ok (.char c, 5) := by
  have hlength : ¬(CodePoint.char 'u' :: CodePoint.ofChars (Text.hexDigits 4 c.toNat) ++ more).length < 6 := by
    have := List.length_pos_iff.2 hmore
    simp [CodePoint.ofChars, Text.hexDigits]
    omega
  have hhigh : isHighSurrogate c.toNat = false := by
    simp [isHighSurrogate]
    omega
  have hunit : unit c.toNat = .char c := by
    have hlow : isLowSurrogate c.toNat = false := by
      simp [isLowSurrogate]
      omega
    simp [unit, hhigh, hlow, Char.ofNat_toNat]
  unfold codePointEscape
  rw [if_neg hlength, List.cons_append, List.drop_one, List.tail_cons, hexQuad?_hexDigits hc]
  dsimp only
  rw [hhigh, hunit]
  split <;> rfl

variable {start : Nat} {rest : List CodePoint}

theorem readStringFrom_skip : ∀ (ps : List CodePoint),
    readStringFrom start ps.length (ps ++ rest) = readStringFrom start 0 rest
  | [] => rfl
  | _ :: ps => readStringFrom_skip ps

/-- A character that is escaped by a letter or by itself. -/
theorem readStringFrom_simpleEscape {e c : Char} (he : simpleEscape? e = some c) :
    readStringFrom start 0 (.char '\\' :: .char e :: rest) =
      (readStringFrom start 0 rest).map fun r => (.char c :: r.1, r.2) := by
  have hu : e ≠ 'u' := by
    rintro rfl
    cases he
  have hstep : readStringFrom start 1 (.char e :: rest) = readStringFrom start 0 rest := rfl
  rw [readStringFrom.eq_def]
  simp only
  split
  · rename_i h
    cases h
  · rename_i h
    cases h
    exact absurd rfl hu
  · rename_i h
    cases h
    simp only [CodePoint.char?, Option.bind_some, he, hstep]
    cases readStringFrom start 0 rest <;> rfl

/-- A control character that is escaped by its digits. -/
theorem readStringFrom_hexDigits {c : Char} (hc : c.toNat < 0x20) (hrest : rest ≠ []) :
    readStringFrom start 0 (.char '\\' :: .char 'u' :: CodePoint.ofChars (Text.hexDigits 4 c.toNat) ++ rest) =
      (readStringFrom start 0 rest).map fun r => (.char c :: r.1, r.2) := by
  have hskip : readStringFrom start 5 (.char 'u' :: CodePoint.ofChars (Text.hexDigits 4 c.toNat) ++ rest)
      = readStringFrom start 0 rest :=
    readStringFrom_skip (.char 'u' :: CodePoint.ofChars (Text.hexDigits 4 c.toNat))
  rw [List.cons_append, List.cons_append] at *
  rw [readStringFrom.eq_def]
  simp only
  rw [← List.cons_append, codePointEscape_hexDigits hc hrest]
  simp only [bind, Except.bind]
  rw [List.cons_append, hskip]
  cases readStringFrom start 0 rest <;> rfl

/-- What stands for itself in a string: no quote, no backslash and no control character. -/
theorem readStringFrom_plain {x : CodePoint} (hquote : x ≠ .char '\x22') (hback : x ≠ .char '\\')
    (hx : ¬x.toNat < 0x20) :
    readStringFrom start 0 (x :: rest) = (readStringFrom start 0 rest).map fun r => (x :: r.1, r.2) := by
  rw [readStringFrom.eq_def]
  split
  · rename_i h
    cases h
  · rename_i h _
    cases h
  · rename_i h
    cases h
    exact absurd rfl hquote
  · rename_i h
    cases h
    exact absurd rfl hback
  · rename_i h
    cases h
    rw [if_neg hx]
    cases readStringFrom start 0 rest <;> rfl

/-- How a character is written: escaped by a letter or by itself, escaped by its digits, or as it is. -/
theorem writeChar_cases (c : Char) :
    (∃ e, writeChar c = ['\\', e] ∧ simpleEscape? e = some c) ∨
    (writeChar c = '\\' :: 'u' :: Text.hexDigits 4 c.toNat ∧ c.toNat < 0x20) ∨
    (writeChar c = [c] ∧ c ≠ '\x22' ∧ c ≠ '\\' ∧ ¬c.toNat < 0x20) := by
  unfold writeChar
  by_cases hmark : c = '\x22' ∨ c = '\\'
  · refine .inl ⟨c, by rw [if_pos (by simpa using hmark)], ?_⟩
    rcases hmark with rfl | rfl <;> rfl
  rw [if_neg (by simpa using hmark)]
  by_cases hnamed : c = '\n' ∨ c = '\r' ∨ c = '\t' ∨ c = '\x0c' ∨ c = '\x08'
  · rcases hnamed with rfl | rfl | rfl | rfl | rfl <;> exact .inl ⟨_, rfl, rfl⟩
  simp only [not_or] at hmark hnamed
  obtain ⟨hn, hr, ht, hf, hb⟩ := hnamed
  simp only [beq_iff_eq, hn, hr, ht, hf, hb, if_false]
  by_cases hc : c.toNat < 0x20
  · exact .inr (.inl ⟨if_pos hc, hc⟩)
  · exact .inr (.inr ⟨if_neg hc, hmark.1, hmark.2, hc⟩)

theorem readStringFrom_writePoint (x : CodePoint) (hrest : rest ≠ []) :
    readStringFrom start 0 (writePoint x ++ rest) =
      (readStringFrom start 0 rest).map fun r => (x :: r.1, r.2) := by
  cases x with
  | half n =>
    refine readStringFrom_plain (by simp) (by simp) ?_
    simp only [CodePoint.toNat]
    omega
  | char c =>
    rw [writePoint]
    rcases writeChar_cases c with ⟨e, hc, he⟩ | ⟨hc, hcontrol⟩ | ⟨hc, hquote, hback, hcontrol⟩ <;> rw [hc]
    · exact readStringFrom_simpleEscape he
    · exact readStringFrom_hexDigits hcontrol hrest
    · exact readStringFrom_plain (by simpa using hquote) (by simpa using hback) hcontrol

/-- **A string reads back**, whatever comes after its closing quote. -/
theorem readStringFrom_write (more : List CodePoint) : ∀ (ps : List CodePoint),
    readStringFrom start 0 (ps.flatMap writePoint ++ .char '\x22' :: more) = .ok (ps, more)
  | [] => rfl
  | x :: ps => by
    rw [List.flatMap_cons, List.append_assoc, readStringFrom_writePoint x (by simp), readStringFrom_write more ps]
    rfl

theorem points_writeString (s : Spelling) :
    (writeString s).points = .char '\x22' :: (s.points.flatMap writePoint ++ [.char '\x22']) := by
  simp [writeString]

/-! ## White space between the parts -/

theorem skipSpace_append {gap : List CodePoint} (hgap : ∀ x ∈ gap, x.any isSpace = true) (cs : List CodePoint) :
    skipSpace (gap ++ cs) = skipSpace cs :=
  List.dropWhile_append_of_pos hgap

theorem skipSpace_cons {x : CodePoint} (hx : x.any isSpace = false) (cs : List CodePoint) :
    skipSpace (x :: cs) = x :: cs :=
  List.dropWhile_cons_of_neg (by simpa using hx)

theorem isSpace_of_mem_lineStart (indent : Option Int) (level : Nat) :
    ∀ x ∈ (lineStart indent level : Spelling).points, x.any isSpace = true := by
  cases indent with
  | none => simp [lineStart, Spelling.points, CodePoint.ofChars]
  | some n =>
    intro x hx
    simp only [lineStart, Spelling.points, CodePoint.ofChars, String.toList_append, String.toList_ofList,
      List.map_append, List.map_replicate, List.mem_append, List.mem_replicate] at hx
    rcases hx with hx | ⟨-, rfl⟩
    · obtain rfl : x = .char '\n' := by simpa using hx
      rfl
    · rfl

theorem exists_separator (indent : Option Int) (level : Nat) : ∃ gap,
    (separator indent level : Spelling).points = .char ',' :: gap ∧ ∀ x ∈ gap, x.any isSpace = true := by
  cases indent with
  | none =>
    have hcomma : (Spelling.text ", ").points = [.char ',', .char ' '] := by decide
    exact ⟨[.char ' '], hcomma, by decide⟩
  | some n =>
    refine ⟨(lineStart (some n) level : Spelling).points, ?_, isSpace_of_mem_lineStart _ _⟩
    simp [separator, Spelling.points, CodePoint.ofChars]

/-! ## Objects -/

/-- **A text that gives a value**: it begins with a quote or a brace, and the reader takes just it, whatever comes
next. -/
structure Gives (depth : Nat) (w : List CodePoint) (v : Value) : Prop where
  starts : ∃ x cs, w = x :: cs ∧ (x = .char '\x22' ∨ x = .char '\x7b')
  reads : ∀ fuel rest, w.length ≤ fuel → readValue fuel depth (w ++ rest) = .ok (v, rest)

variable {depth : Nat}

theorem Gives.skipSpace {w : List CodePoint} {v : Value} (h : Gives depth w v) (rest : List CodePoint) :
    skipSpace (w ++ rest) = w ++ rest := by
  obtain ⟨x, cs, rfl, rfl | rfl⟩ := h.starts <;> exact skipSpace_cons rfl _

theorem gives_writeString (s : Spelling) : Gives depth (writeString s).points (.string s) where
  starts := ⟨_, _, points_writeString s, .inl rfl⟩
  reads fuel rest hfuel := by
    rw [points_writeString] at *
    cases fuel with
    | zero => simp at hfuel
    | succ fuel =>
      rw [List.cons_append, List.append_assoc, List.singleton_append, readValue.eq_def]
      simp only [readStringFrom_write, bind, Except.bind, pure, Except.pure, Spelling.ofPoints_points]

theorem writeMember_eq_write (k : Spelling) (v : Value) : ∀ (members : List (Spelling × Value)),
    writeMember k v members = OrderedMap.write k v members
  | [] => rfl
  | (k', v') :: members => by
    rw [writeMember, OrderedMap.write, writeMember_eq_write k v members]
    split
    · rename_i hk
      rw [hk]
    · rfl

def memberPoints (indent : Option Int) (level : Nat) (k : Spelling) (v : Value) : List CodePoint :=
  (writeString k).points ++ .char ':' :: .char ' ' :: (writeAt indent level v).points

theorem points_colon : (Spelling.text ": ").points = [.char ':', .char ' '] := by decide

theorem points_writeMembers_cons (indent : Option Int) (level : Nat) (k : Spelling) (v : Value)
    (members : List (Spelling × Value)) : (writeMembers indent level ((k, v) :: members)).points =
      (separator indent level : Spelling).points ++ memberPoints indent level k v
        ++ (writeMembers indent level members).points := by
  rw [writeMembers]
  simp only [memberPoints, Spelling.points_append, points_colon, List.append_assoc, List.cons_append, List.nil_append]

theorem points_writeAt_nil (indent : Option Int) (level : Nat) :
    (writeAt indent level (.object [])).points = [.char '\x7b', .char '\x7d'] := by
  rw [writeAt]
  decide

theorem points_writeAt_cons (indent : Option Int) (level : Nat) (k : Spelling) (v : Value)
    (members : List (Spelling × Value)) : (writeAt indent level (.object ((k, v) :: members))).points =
      .char '\x7b' :: ((lineStart indent (level + 1) : Spelling).points ++ (memberPoints indent (level + 1) k v
        ++ (writeMembers indent (level + 1) members).points)
        ++ ((lineStart indent level : Spelling).points ++ [.char '\x7d'])) := by
  have hopen : (Spelling.text "\x7b").points = [.char '\x7b'] := by decide
  have hclose : (Spelling.text "\x7d").points = [.char '\x7d'] := by decide
  rw [writeAt]
  simp only [memberPoints, Spelling.points_append, hopen, hclose, points_colon, List.append_assoc, List.cons_append,
    List.nil_append]

theorem exists_memberPoints (indent : Option Int) (level : Nat) (k : Spelling) (v : Value) :
    ∃ cs, memberPoints indent level k v = .char '\x22' :: cs :=
  ⟨_, by rw [memberPoints, points_writeString, List.cons_append]⟩

theorem skipSpace_memberPoints (indent : Option Int) (level : Nat) (k : Spelling) (v : Value) (cs : List CodePoint) :
    skipSpace (memberPoints indent level k v ++ cs) = memberPoints indent level k v ++ cs := by
  obtain ⟨rest, hrest⟩ := exists_memberPoints indent level k v
  rw [hrest]
  exact skipSpace_cons rfl _

/-- **The members of an object read back**, up to the brace that closes it. -/
theorem readMembers_writeMembers {indent : Option Int} {level : Nat} {close : List CodePoint}
    (hclose : ∀ x ∈ close, x.any isSpace = true) (more : List CodePoint) :
    ∀ (members : List (Spelling × Value)) (k : Spelling) (v : Value) (read : List (Spelling × Value)) (fuel : Nat),
      ((read ++ (k, v) :: members).map Prod.fst).Nodup →
      (∀ p ∈ (k, v) :: members, Gives depth (writeAt indent level p.2).points p.2) →
      (memberPoints indent level k v ++ (writeMembers indent level members).points).length ≤ fuel →
      readMembers fuel depth read (memberPoints indent level k v ++ (writeMembers indent level members).points
        ++ (close ++ .char '\x7d' :: more)) = .ok (read ++ (k, v) :: members, more)
  | members, k, v, read, 0, _, _, hfuel => by simp [memberPoints, points_writeString] at hfuel
  | members, k, v, read, fuel + 1, hnodup, hgives, hfuel => by
    have hv := hgives (k, v) List.mem_cons_self
    have hk : writeMember k v read = read ++ [(k, v)] := by
      rw [writeMember_eq_write]
      refine OrderedMap.write_of_not_mem fun hmem => ?_
      rw [List.map_append, List.nodup_append] at hnodup
      exact hnodup.2.2 k hmem k (by simp) rfl
    have hspace (cs : List CodePoint) : skipSpace (.char ' ' :: ((writeAt indent level v).points ++ cs)) =
        (writeAt indent level v).points ++ cs :=
      (skipSpace_append (show ∀ x ∈ [CodePoint.char ' '], x.any isSpace = true by decide) _).trans (hv.skipSpace _)
    simp only [memberPoints, points_writeString, List.length_append, List.length_cons] at hfuel
    rw [memberPoints, points_writeString, readMembers.eq_def]
    simp only [List.cons_append, List.append_assoc, List.nil_append, readStringFrom_write, bind, Except.bind,
      Spelling.ofPoints_points, skipSpace_cons (x := .char ':') rfl, hspace]
    rw [hv.reads fuel _ (by dsimp only; omega)]
    simp only [hk]
    cases members with
    | nil =>
      have hnil : (writeMembers indent level []).points = [] := by
        rw [writeMembers]
        rfl
      rw [hnil, List.nil_append, skipSpace_append hclose, skipSpace_cons rfl]
      rfl
    | cons p members =>
      obtain ⟨k', v'⟩ := p
      obtain ⟨gap, hsep, hgap⟩ := exists_separator indent level
      rw [points_writeMembers_cons, hsep] at hfuel
      simp only [List.length_append, List.length_cons] at hfuel
      rw [points_writeMembers_cons, hsep]
      simp only [List.cons_append, List.append_assoc, skipSpace_cons (x := .char ',') rfl, skipSpace_append hgap,
        skipSpace_memberPoints]
      have ih := readMembers_writeMembers hclose more members k' v' (read ++ [(k, v)]) fuel (by simpa using hnodup)
        (fun p hp => hgives p (List.mem_cons_of_mem _ hp)) (by rw [List.length_append]; omega)
      simpa only [List.append_assoc, List.singleton_append] using ih

theorem gives_nil {indent : Option Int} {level : Nat} :
    Gives (depth + 1) (writeAt indent level (.object [])).points (.object []) where
  starts := ⟨_, _, points_writeAt_nil indent level, .inr rfl⟩
  reads fuel rest hfuel := by
    rw [points_writeAt_nil] at *
    cases fuel with
    | zero => simp at hfuel
    | succ fuel =>
      rw [List.cons_append, List.singleton_append, readValue.eq_def]
      simp only [skipSpace_cons (x := .char '\x7d') rfl]
      rfl

/-- **An object reads back** if its keys are distinct and its values read back. -/
theorem gives_object {indent : Option Int} {level : Nat} : ∀ {members : List (Spelling × Value)},
    (members.map Prod.fst).Nodup →
    (∀ p ∈ members, Gives depth (writeAt indent (level + 1) p.2).points p.2) →
    Gives (depth + 1) (writeAt indent level (.object members)).points (.object members)
  | [], _, _ => gives_nil
  | (k, v) :: members, hnodup, hgives => by
    refine ⟨⟨_, _, points_writeAt_cons indent level k v members, .inr rfl⟩, fun fuel rest hfuel => ?_⟩
    rw [points_writeAt_cons] at *
    cases fuel with
    | zero => simp at hfuel
    | succ fuel =>
      have hmembers := readMembers_writeMembers (isSpace_of_mem_lineStart indent level) rest
        members k v [] fuel hnodup hgives (by simp only [List.length_append, List.length_cons] at *; omega)
      obtain ⟨cs, hcs⟩ := exists_memberPoints indent (level + 1) k v
      rw [List.cons_append, readValue.eq_def]
      simp only [List.append_assoc, List.singleton_append, skipSpace_append (isSpace_of_mem_lineStart _ _),
        skipSpace_memberPoints, Nat.add_eq_zero_iff, Nat.one_ne_zero, and_false, if_false, Nat.add_sub_cancel]
        at hmembers ⊢
      rw [hcs, List.cons_append] at hmembers ⊢
      exact congrArg (· >>= fun r => pure (Value.object r.1, r.2)) hmembers

/-! ## Values of texts and objects -/

/-- A value of texts and of objects with distinct keys, with at most `depth` objects inside each other. -/
inductive Wordy : (depth : Nat) → Value → Prop
  | string (depth : Nat) (s : Spelling) : Wordy depth (.string s)
  | object {depth : Nat} {members : List (Spelling × Value)} (hnodup : (members.map Prod.fst).Nodup)
      (hmembers : ∀ p ∈ members, Wordy depth p.2) : Wordy (depth + 1) (.object members)

theorem Wordy.gives {v : Value} (h : Wordy depth v) (indent : Option Int) (level : Nat) :
    Gives depth (writeAt indent level v).points v := by
  induction h generalizing level with
  | string depth s =>
    rw [writeAt]
    exact gives_writeString s
  | object hnodup _ ih => exact gives_object hnodup fun p hp => ih p hp (level + 1)

/-- **The reader undoes the writer** on values of texts and objects, whatever the indentation. -/
theorem read_write {v : Value} (h : Wordy maxDepth v) (indent : Option Int) : read (write v indent) = .ok v := by
  have hgives : Gives maxDepth (write v indent).points v := h.gives indent 0
  have hmark : ((write v indent).points.head? == some (.char '\uFEFF')) = false := by
    obtain ⟨x, cs, hcs, rfl | rfl⟩ := hgives.starts <;> rw [hcs] <;> rfl
  have hspace := hgives.skipSpace []
  have hread := hgives.reads (2 * (write v indent).points.length + 2) [] (by omega)
  rw [List.append_nil] at hspace hread
  unfold read readText
  rw [hmark, hspace, hread]
  rfl

end Json
end Argot
