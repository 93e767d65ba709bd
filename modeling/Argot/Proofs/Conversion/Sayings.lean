import Argot.Proofs.Conversion.Decoration
import Argot.Proofs.Conversion.Locality
import Argot.Proofs.Conversion.StrictMode
/-!
# Sayings — declarations are decorated for the eye only

With sayings, the output is the output without them with one decoration before each declaration, and a declaration that
begins its line repeats what stands before it there.  Stripping takes the decorations away again just where only spaces
and tabs are repeated, if declarations begin with a visible character (`vanish_iff`).
-/
namespace Argot
namespace Forward

open Text Argot.Part Comment Segment

variable {t : Table} {o : Options} {n : Node}

def quoting (o : Options) (quotes : Bool) : Options :=
  { o with randomQuotes := quotes }

/-! ## The decoration of a declaration -/

theorem choose_mem {α : Type} (g : Twister) (items : List α) (default : α) :
    (g.choose items default).1 ∈ default :: items := by
  unfold Twister.choose
  generalize Twister.below items.length 1000 g = drawn
  change items.getD drawn.1 default ∈ default :: items
  rw [List.getD_eq_getElem?_getD]
  cases h : items[drawn.1]? with
  | none => exact List.mem_cons_self
  | some a => exact List.mem_cons_of_mem _ (List.mem_of_getElem? h)

theorem saying_fits : ∀ saying ∈ "" :: Standard.quotes,
    (∀ c ∈ saying.toList, onLine c = true) ∧ '♂' ∉ saying.toList ∧ '/' ∉ saying.toList := by
  have hall : ("" :: Standard.quotes).all (fun saying => saying.toList.all fun c => onLine c && c != '♂' && c != '/') =
      true := by
    cbv
  intro saying hsaying
  have hchars := List.all_eq_true.1 (List.all_eq_true.1 hall saying hsaying)
  simp only [Bool.and_eq_true, bne_iff_ne] at hchars
  exact ⟨fun c hc => (hchars c hc).1.1, fun hc => (hchars _ hc).1.2 rfl, fun hc => (hchars _ hc).2 rfl⟩

/-- What a declaration that begins its line repeats. -/
def indentOf? (n : Node) : Option (List Char) :=
  if n.startsLine then some n.indent.toList else none

theorem mem_indentOf? {indent : List Char} (h : indent ∈ indentOf? n) : indent = n.indent.toList := by
  unfold indentOf? at h
  split at h
  · exact (Option.some.inj h).symm
  · cases h

/-- The decoration of a declaration with one of the sayings. -/
def decorationOf (n : Node) (hn : '/' ∉ n.indent.toList) (saying : String) (hsaying : saying ∈ "" :: Standard.quotes) :
    Decoration where
  saying := saying.toList
  indent? := indentOf? n
  onLine := (saying_fits saying hsaying).1
  mark_notMem := (saying_fits saying hsaying).2.1
  slash_notMem := (saying_fits saying hsaying).2.2
  indent_slash_notMem := fun _ hindent => mem_indentOf? hindent ▸ hn

theorem decorate_text (hn : '/' ∉ n.indent.toList) {saying : String} (hsaying : saying ∈ "" :: Standard.quotes) :
    (decorate n saying).text =
      .text (String.ofList ((decorationOf n hn saying hsaying).comment ++ (decorationOf n hn saying hsaying).trail)) := by
  have hcomment : (decorationOf n hn saying hsaying).comment = (Comment.decoration saying).toList := by
    unfold Comment.decoration
    rw [String.toList_append, String.toList_append, List.append_assoc]
    rfl
  rw [hcomment]
  cases hstarts : n.startsLine with
  | true =>
    have htrail : (decorationOf n hn saying hsaying).trail = '\n' :: n.indent.toList := by
      simp [Decoration.trail, decorationOf, indentOf?, hstarts]
    have htext : (decorate n saying).text = .text (Comment.decoration saying ++ ("\n" ++ n.indent)) := by
      simp only [decorate, hstarts]
      rfl
    rw [htext, htrail, Spelling.text.injEq, ← String.toList_inj, String.toList_ofList, String.toList_append,
      String.toList_append]
    rfl
  | false =>
    have htrail : (decorationOf n hn saying hsaying).trail = [' '] := by
      simp [Decoration.trail, decorationOf, indentOf?, hstarts]
    have htext : (decorate n saying).text = .text (Comment.decoration saying ++ " ") := by
      simp only [decorate, hstarts]
      rfl
    rw [htext, htrail, Spelling.text.injEq, ← String.toList_inj, String.toList_ofList, String.toList_append]
    rfl

/-- What a node repeats holds no slash, since it is white space. -/
theorem slash_notMem_indent {source : List UInt8} {tree : Tree} {nodes : List Node}
    (hnodes : Node.ofTree source tree = .ok nodes) (hn : n ∈ nodes) : '/' ∉ n.indent.toList := by
  intro hslash
  obtain ⟨b, hb, heq⟩ := Node.exists_byte_of_mem_indent hnodes hn hslash
  have hbytes : ∀ b : Fin 256, Node.isIndentByte (UInt8.ofNat b) = true → '/' ≠ Char.ofNat b := by
    decide +kernel
  have hlt : b.toNat < 256 := b.toNat_lt
  refine hbytes ⟨b.toNat, hlt⟩ ?_ heq
  simpa using hb

/-! ## Declarations that begin with a visible character -/

/-- **A declaration begins with a visible character**, of a token that is no comment; said of the nodes from it on. -/
def BeginsVisibly (start : Nat) : List Node → Prop
  | [] => False
  | m :: rest => m.start = start ∧
    if m.isLeaf then m.kind ≠ .comment ∧ m.text.toList.head?.any (fun c => !isIndent c) = true
    else BeginsVisibly start rest

/-- Every declaration that begins its line begins with a visible character. -/
def AllBeginVisibly : List Node → Prop
  | [] => True
  | n :: rest => (n.kind.isDeclaration = true → n.startsLine = true → BeginsVisibly n.start (n :: rest)) ∧
    AllBeginVisibly rest

theorem beginsVisibly_spots {start : Nat} : ∀ {nodes : List Node},
    BeginsVisibly start (nodes.map Node.spot) ↔ BeginsVisibly start nodes
  | [] => Iff.rfl
  | n :: nodes => by
    have ih := @beginsVisibly_spots start nodes
    rw [List.map_cons, BeginsVisibly, BeginsVisibly, Node.isLeaf_spot, ih]
    cases hleaf : n.isLeaf with
    | true => rw [Node.spot_of_isLeaf hleaf]
    | false => simp [Node.spot, hleaf]

theorem allBeginVisibly_spots : ∀ {nodes : List Node}, AllBeginVisibly (nodes.map Node.spot) ↔ AllBeginVisibly nodes
  | [] => Iff.rfl
  | n :: nodes => by
    have hspots := @beginsVisibly_spots n.start (n :: nodes)
    have hn : n.spot.kind = n.kind ∧ n.spot.startsLine = n.startsLine ∧ n.spot.start = n.start := by
      unfold Node.spot
      split <;> exact ⟨rfl, rfl, rfl⟩
    rw [List.map_cons] at hspots ⊢
    rw [AllBeginVisibly, AllBeginVisibly, allBeginVisibly_spots, hn.1, hn.2.1, hn.2.2, hspots]

/-- Bytes that begin with none of a space or a tab. -/
def Visible (bytes : List UInt8) : Prop :=
  ∃ b rest, bytes = b :: rest ∧ b ≠ 0x20 ∧ b ≠ 0x09

theorem Visible.append {bytes : List UInt8} (h : Visible bytes) (rest : List UInt8) : Visible (bytes ++ rest) := by
  obtain ⟨b, later, rfl, hb⟩ := h
  exact ⟨b, later ++ rest, rfl, hb⟩

theorem visible_encode {c : Char} (hc : isIndent c = false) (cs : List Char) : Visible (encode (c :: cs)) := by
  obtain ⟨b, bs, hb, hchar⟩ := decodeChar_encode c []
  refine ⟨b, bs ++ encode cs, by rw [encode_cons, hb, List.cons_append], ?_, ?_⟩
  · rintro rfl
    obtain ⟨rfl, -⟩ := Prod.mk.inj (Except.ok.inj hchar)
    exact absurd hc (by decide)
  · rintro rfl
    obtain ⟨rfl, -⟩ := Prod.mk.inj (Except.ok.inj hchar)
    exact absurd hc (by decide)

theorem Visible.head?_decodeFrom {bytes : List UInt8} (h : Visible bytes) {p : Nat} {cs : List Char}
    (hdec : decodeFrom p bytes = .ok cs) : ∀ c ∈ cs.head?, isIndent c = false := by
  obtain ⟨b, rest, rfl, hspace, htab⟩ := h
  have hbytes := encode_of_decodeFrom _ (Nat.le_refl _) hdec
  intro c hc
  obtain ⟨cs, rfl⟩ := List.head?_eq_some_iff.1 hc
  by_contra hindent
  rw [Bool.not_eq_false, isIndent, Bool.or_eq_true, beq_iff_eq, beq_iff_eq] at hindent
  rcases hindent with rfl | rfl
  · exact hspace (List.cons.inj hbytes).1.symm
  · exact htab (List.cons.inj hbytes).1.symm

/-- A form that reads as one name begins with a visible character. -/
theorem visible_form {form : Spelling} {bytes : List UInt8} (h : isNameForm form = true) (hbytes : form.bytes = .ok bytes) :
    Visible bytes := by
  obtain ⟨text, rfl⟩ := Spelling.text_of_bytes_ok hbytes
  obtain rfl := Except.ok.inj hbytes
  dsimp only [isNameForm] at h
  cases htext : text.toList with
  | nil =>
    rw [htext] at h
    cases h
  | cons c cs =>
    have hbytes : bytesOf text = encode (c :: cs) := congrArg encode htext
    rw [hbytes]
    refine visible_encode ?_ cs
    by_contra hindent
    rw [Bool.not_eq_false, isIndent, Bool.or_eq_true, beq_iff_eq, beq_iff_eq] at hindent
    have hline : c ≠ '\n' := by
      rcases hindent with rfl | rfl <;> decide
    -- the first character is not the line feed that does not count
    have hfront : ∃ rest, Kind.withoutFinalNewline (c :: cs) = c :: rest := by
      unfold Kind.withoutFinalNewline
      split
      · cases cs with
        | nil => simp_all
        | cons e cs => exact ⟨_, rfl⟩
      · exact ⟨cs, rfl⟩
    obtain ⟨rest, hrest⟩ := hfront
    rw [htext, hrest] at h
    have hat : c ≠ '@' := by
      rcases hindent with rfl | rfl <;> decide
    have hstart : isNameStart c = false := by
      rcases hindent with rfl | rfl <;> decide
    simp [hat, hstart] at h

/-- **What becomes of a token that is no comment**: it stays, a form takes its place, or it changes behind its start. -/
theorem nodeParts_cases (hstop : n.stop = n.start + (encode n.text.toList).length) (hcomment : n.kind ≠ .comment) :
    nodeParts t o n = copies (encode n.text.toList) ∨
      (∃ form, isNameForm form = true ∧ nodeParts t o n = [swap (encode n.text.toList) form]) ∨
      ∃ i j new, (0 < i ∨ encode n.text.toList = []) ∧ nodeParts t o n = around (encode n.text.toList) i j new := by
  by_cases hleaf : n.isLeaf = true
  · have hkind : (n.kind == .comment) = false := by simp [hcomment]
    cases htreat : treat t o n with
    | keep => exact .inl (nodeParts_of_no_edit (by simp [visitLeaf, hkind, htreat]))
    | refuse => exact .inl (nodeParts_of_no_edit (by simp [visitLeaf, hkind, htreat]))
    | change e =>
      have hparts := nodeParts_of_change hleaf htreat
      rcases treat_eq_change htreat with ⟨-, -, -, rfl⟩ | ⟨-, -, -, rfl, -⟩ | ⟨-, -, rfl, -, hname⟩
      · refine .inr (.inr ⟨_, _, _, ?_, hparts⟩)
        rcases Nat.eq_zero_or_pos (encode n.text.toList).length with hzero | hpos
        · exact .inr (List.eq_nil_of_length_eq_zero hzero)
        · refine .inl ?_
          dsimp only [Edit.insertion]
          omega
      · exact .inr (.inr ⟨_, _, _, .inl (by dsimp only; omega), hparts⟩)
      · exact .inr (.inl ⟨_, hname, nodeParts_of_whole hleaf hstop htreat⟩)
  · exact .inl (if_neg (by simp [hleaf]))

/-- A token that begins with a visible character, and is no comment, becomes something that does. -/
theorem visible_nodeParts (hstop : n.stop = n.start + (encode n.text.toList).length) (hcomment : n.kind ≠ .comment)
    {c : Char} {cs : List Char} (htext : n.text.toList = c :: cs) (hc : isIndent c = false) {bytes : List UInt8}
    (h : target (nodeParts t o n) = .ok bytes) : Visible bytes := by
  have hvisible : Visible (encode n.text.toList) := htext ▸ visible_encode hc cs
  rcases nodeParts_cases (t := t) (o := o) hstop hcomment with hparts | ⟨form, hform, hparts⟩ | ⟨i, j, new, hi, hparts⟩
  · rw [hparts, target_copies] at h
    exact Except.ok.inj h ▸ hvisible
  · rw [hparts] at h
    obtain ⟨text, htext⟩ := isText_of_isNameForm hform
    have hbytes : form.bytes = .ok bytes := by
      rw [htext] at h ⊢
      simpa [target, bytes_text, bind, Except.bind, pure, Except.pure] using h
    exact visible_form hform hbytes
  · -- the first byte of the token stays
    obtain ⟨b, rest, hb, hne⟩ := hvisible
    rw [hb] at hi hparts
    rw [hparts, around] at h
    obtain ⟨first, later, hfirst, -, rfl⟩ := target_append_eq_ok_iff.1 h
    rw [target_copies] at hfirst
    obtain rfl := Except.ok.inj hfirst
    have hpos : 0 < i := hi.resolve_right (by simp)
    obtain ⟨i, rfl⟩ := Nat.exists_eq_succ_of_ne_zero hpos.ne'
    exact ⟨b, rest.take i ++ later, rfl, hne⟩

/-! ## The output with and without sayings -/

/-- The parts of nodes and of the gaps before them, without sayings. -/
def plainParts (t : Table) (o : Options) (l : List (List Char × Node)) : List Part :=
  l.flatMap fun q => copies (encode q.1) ++ nodeParts t o q.2

def plainOutput (t : Table) (o : Options) (l : List (List Char × Node)) (tail : List Char) :
    Except EncodeError (List UInt8) :=
  target (plainParts t o l ++ copies (encode tail))

theorem allParts_quoting_false (g : Twister) : ∀ (l : List (List Char × Node)),
    allParts t (quoting o false) g l = plainParts t o l
  | [] => rfl
  | (gap, n) :: l => by
    have hnone : ¬(n.kind.isDeclaration && (quoting o false).randomQuotes) = true := by simp [quoting]
    have hparts : nodeParts t (quoting o false) n = nodeParts t o n := rfl
    rw [allParts, if_neg hnone, allParts_quoting_false g l, hparts]
    simp [plainParts]

theorem plainOutput_cons_eq_ok_iff {gap tail : List Char} {l : List (List Char × Node)} {bytes : List UInt8} :
    plainOutput t o ((gap, n) :: l) tail = .ok bytes ↔ ∃ first rest, target (nodeParts t o n) = .ok first ∧
      plainOutput t o l tail = .ok rest ∧ bytes = encode gap ++ (first ++ rest) := by
  have hparts : plainParts t o ((gap, n) :: l) ++ copies (encode tail) =
      copies (encode gap) ++ (nodeParts t o n ++ (plainParts t o l ++ copies (encode tail))) := by simp [plainParts]
  unfold plainOutput
  rw [hparts, target_append_eq_ok_iff]
  constructor
  · rintro ⟨before, later, hgap, hlater, rfl⟩
    rw [target_copies] at hgap
    obtain rfl := Except.ok.inj hgap
    obtain ⟨first, rest, hfirst, hrest, rfl⟩ := target_append_eq_ok_iff.1 hlater
    exact ⟨first, rest, hfirst, hrest, rfl⟩
  · rintro ⟨first, rest, hfirst, hrest, rfl⟩
    exact ⟨_, _, target_copies _, target_append_eq_ok_iff.2 ⟨first, rest, hfirst, hrest, rfl⟩, rfl⟩

theorem startsChar_plainOutput {tail : List Char} : ∀ {l : List (List Char × Node)} {start : Nat} {bytes : List UInt8},
    Node.Placed start l → plainOutput t o l tail = .ok bytes → StartsChar bytes
  | [], _, bytes, _, h => by
    rw [plainOutput, plainParts, List.flatMap_nil, List.nil_append, target_copies] at h
    exact Except.ok.inj h ▸ startsChar_encode tail
  | (gap, n) :: l, _, bytes, hp, h => by
    obtain ⟨first, rest, hfirst, hrest, rfl⟩ := plainOutput_cons_eq_ok_iff.1 h
    have hstart : StartsChar first := by
      unfold nodeParts at hfirst
      split at hfirst
      · exact startsChar_tokenParts hp.2.1 hfirst
      · rw [target_copies] at hfirst
        exact Except.ok.inj hfirst ▸ startsChar_encode _
    exact (startsChar_encode gap).append (hstart.append (startsChar_plainOutput hp.2.2 hrest))

/-- What a declaration that begins with a visible character becomes begins with one. -/
theorem visible_plainOutput {tail : List Char} : ∀ {l : List (List Char × Node)} {start : Nat} {bytes : List UInt8},
    Node.Placed start l → (∀ q ∈ l, q.2.isLeaf = false → q.2.text = "") → BeginsVisibly start (l.map Prod.snd) →
    plainOutput t o l tail = .ok bytes → Visible bytes
  | (gap, m) :: l, start, bytes, hp, hentered, hbegins, h => by
    obtain ⟨first, rest, hfirst, hrest, rfl⟩ := plainOutput_cons_eq_ok_iff.1 h
    obtain ⟨hstart, hstop, hlater⟩ := hp
    obtain ⟨hplace, hbegins⟩ := hbegins
    dsimp only at hstart hstop hplace hbegins
    obtain rfl : gap = [] := encode_eq_nil (by omega)
    rw [encode_nil, List.nil_append]
    cases hleaf : m.isLeaf with
    | true =>
      rw [hleaf, if_pos rfl] at hbegins
      obtain ⟨hcomment, hhead⟩ := hbegins
      obtain ⟨c, hc, hvisible⟩ := (Option.any_eq_true _ _).1 hhead
      obtain ⟨cs, htext⟩ := List.head?_eq_some_iff.1 hc
      exact (visible_nodeParts hstop hcomment htext (by simpa using hvisible) hfirst).append rest
    | false =>
      rw [hleaf, if_neg Bool.false_ne_true] at hbegins
      have htext : m.text = "" := hentered _ List.mem_cons_self hleaf
      have hnone : first = [] := by
        rw [nodeParts, hleaf, htext, Bool.false_and, if_neg Bool.false_ne_true, target_copies] at hfirst
        exact (Except.ok.inj hfirst).symm
      have hsame : m.stop = start := by
        rw [htext] at hstop
        rw [hstop, hplace]
        rfl
      rw [hnone, List.nil_append]
      exact visible_plainOutput (hsame ▸ hlater) (fun q hq => hentered q (List.mem_cons_of_mem _ hq)) hbegins hrest

/-- What comes behind the gap before a node that begins with a visible character does not go on with an indentation. -/
theorem head?_behind_gap {gap tail cs : List Char} {l : List (List Char × Node)} {start p : Nat} {first rest : List UInt8}
    (hp : Node.Placed start ((gap, n) :: l)) (hentered : ∀ q ∈ (gap, n) :: l, q.2.isLeaf = false → q.2.text = "")
    (hbegins : BeginsVisibly n.start (n :: l.map Prod.snd)) (hfirst : target (nodeParts t o n) = .ok first)
    (hrest : plainOutput t o l tail = .ok rest) (hdec : decodeFrom p (first ++ rest) = .ok cs) :
    ∀ c ∈ cs.head?, isIndent c = false := by
  -- behind its gap, the node is placed where it starts
  have hplaced : Node.Placed n.start (([], n) :: l) := ⟨rfl, hp.2.1, hp.2.2⟩
  have hentered' : ∀ q ∈ ([], n) :: l, q.2.isLeaf = false → q.2.text = "" := by
    rintro q (_ | ⟨_, hq⟩)
    · exact hentered (gap, n) List.mem_cons_self
    · exact hentered q (List.mem_cons_of_mem _ hq)
  have hout : plainOutput t o (([], n) :: l) tail = .ok (first ++ rest) :=
    plainOutput_cons_eq_ok_iff.2 ⟨first, rest, hfirst, hrest, rfl⟩
  exact (visible_plainOutput hplaced hentered' hbegins hout).head?_decodeFrom hdec

/-- The indentations that declarations repeat. -/
def repeated (nodes : List Node) : List (Option (List Char)) :=
  (nodes.filter fun n => n.kind.isDeclaration).map indentOf?

section
variable {gap tail : List Char} {l : List (List Char × Node)} {first later : List UInt8} (g : Twister)
  (hfirst : target (nodeParts t o n) = .ok first)
include hfirst

/-- A declaration goes with its decoration. -/
theorem target_declared (hdecl : n.kind.isDeclaration = true) (hn : '/' ∉ n.indent.toList)
    (hlater : target (allParts t (quoting o true) (g.choose Standard.quotes "").2 l ++ copies (encode tail)) = .ok later) :
    let d := decorationOf n hn _ (choose_mem g Standard.quotes "")
    target (allParts t (quoting o true) g ((gap, n) :: l) ++ copies (encode tail)) =
      .ok (encode gap ++ (encode (d.comment ++ d.trail) ++ (first ++ later))) := by
  intro d
  have hparts : allParts t (quoting o true) g ((gap, n) :: l) ++ copies (encode tail) = copies (encode gap) ++
      ([swap [] (.text (String.ofList (d.comment ++ d.trail)))] ++ (nodeParts t o n ++
        (allParts t (quoting o true) (g.choose Standard.quotes "").2 l ++ copies (encode tail)))) := by
    have hnode : nodeParts t (quoting o true) n = nodeParts t o n := rfl
    rw [allParts, if_pos (by simp [hdecl, quoting]), ← decorate_text hn (choose_mem g Standard.quotes ""), ← hnode]
    simp
  have hswap : target [swap [] (.text (String.ofList (d.comment ++ d.trail)))] = .ok (encode (d.comment ++ d.trail)) := by
    simp [target, bytes_text, bind, Except.bind, pure, Except.pure]
  rw [hparts]
  exact target_append_eq_ok_iff.2 ⟨_, _, target_copies _, target_append_eq_ok_iff.2 ⟨_, _, hswap,
    target_append_eq_ok_iff.2 ⟨_, _, hfirst, hlater, rfl⟩, rfl⟩, rfl⟩

theorem target_undeclared (hdecl : n.kind.isDeclaration = false)
    (hlater : target (allParts t (quoting o true) g l ++ copies (encode tail)) = .ok later) :
    target (allParts t (quoting o true) g ((gap, n) :: l) ++ copies (encode tail)) =
      .ok (encode gap ++ (first ++ later)) := by
  have hparts : allParts t (quoting o true) g ((gap, n) :: l) ++ copies (encode tail) = copies (encode gap) ++
      (nodeParts t o n ++ (allParts t (quoting o true) g l ++ copies (encode tail))) := by
    have hnode : nodeParts t (quoting o true) n = nodeParts t o n := rfl
    rw [allParts, if_neg (by simp [hdecl]), ← hnode]
    simp
  rw [hparts]
  exact target_append_eq_ok_iff.2 ⟨_, _, target_copies _, target_append_eq_ok_iff.2 ⟨_, _, hfirst, hlater, rfl⟩, rfl⟩

end

/-- **The output with sayings is the output without them, decorated.** -/
theorem exists_segments (tail : List Char) : ∀ {l : List (List Char × Node)} {start p : Nat} {bytes : List UInt8}
    {cs : List Char} (g : Twister), Node.Placed start l →
    (∀ q ∈ l, '/' ∉ q.2.indent.toList ∧ (q.2.isLeaf = false → q.2.text = "")) →
    plainOutput t o l tail = .ok bytes → decodeFrom p bytes = .ok cs →
    ∃ bytes' ps, target (allParts t (quoting o true) g l ++ copies (encode tail)) = .ok bytes' ∧
      decodeFrom p bytes' = .ok (decorated ps) ∧ plain ps = cs ∧ indents ps = repeated (l.map Prod.snd) ∧
      (AllBeginVisibly (l.map Prod.snd) → Flush ps)
  | [], start, p, bytes, cs, g, _, _, hout, hdec => by
    have hplain : plain (cs.map char ++ []) = cs := (plain_chars [] cs).trans (List.append_nil cs)
    have hdecorated : decorated (cs.map char ++ []) = cs := (decorated_chars [] cs).trans (List.append_nil cs)
    exact ⟨bytes, cs.map char ++ [], hout, hdecorated.symm ▸ hdec, hplain, indents_chars [] cs,
      fun _ => (flush_chars [] cs).2 trivial⟩
  | (gap, n) :: l, start, p, bytes, cs, g, hp, hall, hout, hdec => by
    obtain ⟨first, rest, hfirst, hrest, rfl⟩ := plainOutput_cons_eq_ok_iff.1 hout
    obtain ⟨hindent, -⟩ := hall _ List.mem_cons_self
    have hlater : ∀ q ∈ l, '/' ∉ q.2.indent.toList ∧ (q.2.isLeaf = false → q.2.text = "") :=
      fun q hq => hall q (List.mem_cons_of_mem _ hq)
    -- what follows the gap, and what follows the node, begins with a character
    obtain ⟨behind, hbehind, rfl⟩ := decodeFrom_encode_append_eq_ok_iff.1 hdec
    obtain ⟨ds, es, rfl, hes, hother⟩ := decodeFrom_split (startsChar_plainOutput hp.2.2 hrest) _ (Nat.le_refl _) hbehind
    by_cases hdecl : n.kind.isDeclaration = true
    · let d := decorationOf n hindent _ (choose_mem g Standard.quotes "")
      obtain ⟨later, ps, htarget, hlaterDec, hplain, hindents, hflush⟩ :=
        exists_segments tail (g.choose Standard.quotes "").2 hp.2.2 hlater hrest hes
      refine ⟨_, gap.map char ++ (.decoration d :: (ds.map char ++ ps)), target_declared g hfirst hdecl hindent htarget,
        ?_, ?_, ?_, fun hbegin => ?_⟩
      · rw [decorated_chars, decorated, decorated_chars, ← List.append_assoc d.comment]
        refine decodeFrom_encode_append_eq_ok_iff.2 ⟨_, decodeFrom_encode_append_eq_ok_iff.2 ⟨_, ?_, rfl⟩, rfl⟩
        refine decodeFrom_ok_of_ok _ (Nat.le_refl _) ((hother later).trans ?_)
        rw [hlaterDec]
        rfl
      · rw [plain_chars, plain, plain_chars, hplain]
      · rw [indents_chars, indents, indents_chars, hindents]
        simp [repeated, hdecl, d, decorationOf]
      · obtain ⟨hfront, hbegin⟩ := hbegin
        refine (flush_chars _ _).2 ⟨fun hsome => head?_decorated ?_, (flush_chars _ _).2 (hflush hbegin)⟩
        have hstarts : n.startsLine = true := by
          by_contra hnot
          exact hsome (if_neg hnot)
        rw [plain_chars, hplain]
        exact head?_behind_gap hp (fun q hq => (hall q hq).2) (hfront hdecl hstarts) hfirst hrest hbehind
    · have hdecl : n.kind.isDeclaration = false := by simpa using hdecl
      obtain ⟨later, ps, htarget, hlaterDec, hplain, hindents, hflush⟩ := exists_segments tail g hp.2.2 hlater hrest hes
      refine ⟨_, gap.map char ++ (ds.map char ++ ps), target_undeclared g hfirst hdecl htarget, ?_, ?_, ?_, fun hbegin =>
        (flush_chars _ _).2 ((flush_chars _ _).2 (hflush hbegin.2))⟩
      · rw [decorated_chars, decorated_chars]
        refine decodeFrom_encode_append_eq_ok_iff.2 ⟨_, (hother later).trans ?_, rfl⟩
        rw [hlaterDec]
        rfl
      · rw [plain_chars, plain_chars, hplain]
      · rw [indents_chars, indents_chars, hindents]
        simp [repeated, hdecl]

/-! ## Decorations that vanish -/

/-- **Only spaces and tabs stand before a declaration that begins its line.** -/
def EvenlyIndented (nodes : List Node) : Prop :=
  ∀ n ∈ nodes, n.kind.isDeclaration = true → n.startsLine = true → ∀ c ∈ n.indent.toList, isIndent c = true

theorem tabbed_iff {ps : List Segment} {nodes : List Node} (h : indents ps = repeated nodes) :
    Tabbed ps ↔ EvenlyIndented nodes := by
  unfold Tabbed EvenlyIndented
  rw [h]
  constructor
  · intro htabbed n hn hdecl hstarts
    refine htabbed _ (List.mem_map.2 ⟨n, List.mem_filter.2 ⟨hn, hdecl⟩, ?_⟩)
    exact if_pos hstarts
  · intro heven indent hin
    obtain ⟨n, hn, hindent⟩ := List.mem_map.1 hin
    obtain ⟨hn, hdecl⟩ := List.mem_filter.1 hn
    have hstarts : n.startsLine = true := by
      by_contra hnot
      rw [indentOf?, if_neg hnot] at hindent
      cases hindent
    exact mem_indentOf? hindent ▸ heven n hn hdecl hstarts

theorem repeated_spots (nodes : List Node) : repeated (nodes.map Node.spot) = repeated nodes := by
  have hkind : ∀ n : Node, n.spot.kind = n.kind ∧ indentOf? n.spot = indentOf? n := by
    intro n
    unfold Node.spot
    split <;> exact ⟨rfl, rfl⟩
  induction nodes with
  | nil => rfl
  | cons n nodes ih =>
    unfold repeated at ih ⊢
    rw [List.map_cons, List.filter_cons, List.filter_cons, (hkind n).1]
    split
    · rw [List.map_cons, List.map_cons, (hkind n).2, ih]
    · exact ih

/-- The decorated output of a source. -/
theorem exists_decorated {source : String} {tree : Tree} {nodes : List Node} (hwf : tree.WellFormed source.toList)
    (hnodes : Node.ofTree (bytesOf source) tree = .ok nodes) (t : Table) (o : Options) (g : Twister) {plainly : Outcome}
    (hplain : (convert t (quoting o false) g (bytesOf source) tree).1 = .ok plainly) :
    ∃ out ps, (convert t (quoting o true) g (bytesOf source) tree).1 = .ok out ∧ plain ps = plainly.code.toList ∧
      decorated ps = out.code.toList ∧ indents ps = repeated nodes ∧ (AllBeginVisibly nodes → Flush ps) := by
  obtain ⟨nodes', l, tail, hwalked⟩ := exists_walked hwf
  obtain rfl := Except.ok.inj (hnodes.symm.trans hwalked.nodes_eq)
  rw [bytesOf] at hplain ⊢
  obtain ⟨bytes, cs, hout, hdec, rfl⟩ := (hwalked.convert_eq_ok_iff g).1 hplain
  rw [allParts_quoting_false] at hout
  have hall : ∀ q ∈ l, '/' ∉ q.2.indent.toList ∧ (q.2.isLeaf = false → q.2.text = "") := by
    intro q hq
    have hmem : q.2 ∈ nodes.map Node.spot := hwalked.spots_eq ▸ List.mem_map_of_mem hq
    obtain ⟨n, hn, hspot⟩ := List.mem_map.1 hmem
    have hindent := slash_notMem_indent hnodes hn
    rw [← hspot]
    unfold Node.spot
    split
    · rename_i hleaf
      exact ⟨hindent, fun hnot => by simp [hleaf] at hnot⟩
    · exact ⟨hindent, fun _ => rfl⟩
  obtain ⟨bytes', ps, hout', hdec', hps, hindents, hflush⟩ := exists_segments tail g hwalked.placed hall hout hdec
  rw [hwalked.spots_eq, repeated_spots] at hindents
  rw [hwalked.spots_eq, allBeginVisibly_spots] at hflush
  refine ⟨_, ps, (hwalked.convert_eq_ok_iff g).2 ⟨bytes', _, hout', hdec', rfl⟩, ?_, ?_, hindents, hflush⟩
  · rw [hps, String.toList_ofList]
  · rw [String.toList_ofList]

/-- **Decorations vanish just where only spaces and tabs are repeated.**  Where the output without sayings holds no opening
of a generated comment, the output with sayings is that text decorated, each decoration repeating what stands before its
declaration.  Stripping gives the text back just if only spaces and tabs are repeated and none follow; none do where
declarations begin with a visible character. -/
theorem vanish_iff {source : String} {tree : Tree} {nodes : List Node} (hwf : tree.WellFormed source.toList)
    (hnodes : Node.ofTree (bytesOf source) tree = .ok nodes) (t : Table) (o : Options) (g : Twister) {plainly : Outcome}
    (hplain : (convert t (quoting o false) g (bytesOf source) tree).1 = .ok plainly)
    (hopening : ¬opening <:+: plainly.code.toList) (hsaying : ¬sayingOpening <:+: plainly.code.toList) :
    ∃ out ps, (convert t (quoting o true) g (bytesOf source) tree).1 = .ok out ∧ plain ps = plainly.code.toList ∧
      decorated ps = out.code.toList ∧ indents ps = repeated nodes ∧ (AllBeginVisibly nodes → Flush ps) ∧
      (strip out.code = plainly.code ↔ EvenlyIndented nodes ∧ Flush ps) := by
  obtain ⟨out, ps, hout, hps, hdecorated, hindents, hflush⟩ := exists_decorated hwf hnodes t o g hplain
  refine ⟨out, ps, hout, hps, hdecorated, hindents, hflush, ?_⟩
  have hstrip := stripChars_decorated_iff (hps ▸ hopening) (hps ▸ hsaying)
  rw [tabbed_iff hindents, hps, hdecorated] at hstrip
  rw [← hstrip, ← String.toList_inj, strip, String.toList_ofList]

/-- A class on a line of its own, behind one character of white space. -/
def classTree : Tree :=
  .inner "program" 1 11 none [
    .inner "class_declaration" 1 11 none [
      .token "class" false 1 6, .token "type_identifier" true 7 8 "name",
      .inner "class_body" 9 11 "body" [.token "\x7b" false 9 10, .token "\x7d" false 10 11]]]

def classNodes (indent : String) : List Node :=
  [.inner .other .other "program" 1 11,
    { Node.inner .classDeclaration .other "class_declaration" 1 11 with startsLine := true, indent },
    .token .keyword .classDeclaration "class" "class" 1 6,
    .token .typeReference .classDeclaration "type_identifier" "A" 7 8 "name",
    .inner .other .classDeclaration "class_body" 9 11 "body", .token .operator .other "\x7b" "\x7b" 9 10,
    .token .operator .other "\x7d" "\x7d" 10 11]

theorem ofTree_classTree : ∀ indent ∈ ["\t", "\x0c"],
    Node.ofTree (bytesOf (indent ++ "class A \x7b\x7d")) classTree = .ok (classNodes indent) := by
  decide +kernel

theorem convert_classTree (g : Twister) : ∀ indent ∈ ["\t", "\x0c"],
    (convert (Table.ofLists []) (quoting {} false) g (bytesOf (indent ++ "class A \x7b\x7d")) classTree).1 =
      .ok ⟨indent ++ "class A \x7b\x7d", []⟩ := by
  intro indent hindent
  unfold convert
  rw [ofTree_classTree indent hindent]
  simp only [List.mem_cons, List.not_mem_nil, or_false] at hindent
  rcases hindent with rfl | rfl <;> cbv

/-- Behind a tab, the decoration of a class vanishes, whatever it says. -/
theorem vanish_behind_tab :
    let source := "\tclass A \x7b\x7d"
    classTree.WellFormed source.toList ∧ ∀ g, ∃ plainly out,
      (convert (Table.ofLists []) (quoting {} false) g (bytesOf source) classTree).1 = .ok plainly ∧
      (convert (Table.ofLists []) (quoting {} true) g (bytesOf source) classTree).1 = .ok out ∧
      strip out.code = plainly.code := by
  intro source
  have hwf : classTree.WellFormed source.toList := by decide
  refine ⟨hwf, fun g => ?_⟩
  have hplain := convert_classTree g "\t" (by decide)
  have hnodes := ofTree_classTree "\t" (by decide)
  obtain ⟨out, ps, hout, -, -, -, hflush, hiff⟩ := vanish_iff hwf hnodes (Table.ofLists []) {} g hplain (by decide) (by decide)
  have hvisible : AllBeginVisibly (classNodes "\t") := by
    simp [AllBeginVisibly, BeginsVisibly, classNodes, Node.inner, Node.token, Kind.isDeclaration, isIndent]
  have heven : EvenlyIndented (classNodes "\t") := by
    simp [EvenlyIndented, classNodes, Node.inner, Node.token, Kind.isDeclaration, isIndent]
  exact ⟨_, out, hplain, hout, hiff.2 ⟨heven, hflush hvisible⟩⟩

/-- **Behind a form feed, a class is left with two of them**, since the line that is taken away begins with one that is
taken for no indentation. -/
theorem stays_behind_form_feed :
    let source := "\x0cclass A \x7b\x7d"
    classTree.WellFormed source.toList ∧ ∃ plainly out,
      (convert (Table.ofLists []) (quoting {} false) (.ofSeed 0) (bytesOf source) classTree).1 = .ok plainly ∧
      (convert (Table.ofLists []) (quoting {} true) (.ofSeed 0) (bytesOf source) classTree).1 = .ok out ∧
      ¬"GACHI:".toList <:+: source.toList ∧ '♂' ∉ source.toList ∧ strip out.code ≠ plainly.code := by
  intro source
  have hwf : classTree.WellFormed source.toList := by decide
  have hplain := convert_classTree (.ofSeed 0) "\x0c" (by decide)
  have hnodes := ofTree_classTree "\x0c" (by decide)
  obtain ⟨out, ps, hout, hps, hdecorated, hindents, -⟩ :=
    exists_decorated hwf hnodes (Table.ofLists []) {} (.ofSeed 0) hplain
  refine ⟨hwf, _, out, hplain, hout, by decide, by decide, fun hstrip => ?_⟩
  rw [← String.toList_inj, strip, String.toList_ofList, ← hps, ← hdecorated] at hstrip
  have htabbed := ((stripChars_decorated_iff (hps ▸ by decide) (hps ▸ by decide)).1 hstrip).1
  have heven := (tabbed_iff hindents).1 htabbed
  have hfeed : isIndent '\x0c' = true :=
    heven _ (List.mem_cons_of_mem _ List.mem_cons_self) rfl rfl '\x0c' (by decide)
  exact absurd hfeed (by decide)

end Forward
end Argot
