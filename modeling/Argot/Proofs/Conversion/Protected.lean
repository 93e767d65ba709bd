import Argot.Proofs.Conversion.Locality
import Argot.Proofs.Source.Places
/-!
# Protected — places that conversion leaves alone

Which tokens may change is said by the types and fields around them (`Protected`), with no look at the table.  The
decision about a protected token is to skip it (`Protected.action_eq_skip`), so its bytes are copied, and the name of a
called method can only give way to its entry among the methods (`protected_stays`).
-/
namespace Argot

/-- Some parts stand among others, at a byte of the source. -/
def Part.Among (part parts : List Part) (start : Nat) : Prop :=
  ∃ before after, parts = before ++ part ++ after ∧ (source before).length = start

namespace Forward

open Text Argot.Part

variable {t : Table} {o : Options} {n : Node} {source : List UInt8} {above : List Tree} {u : Tree}

/-! ## Places by their surroundings -/

/-- The types of the text of templates, of markup, numbers and regular expressions. -/
def literalTypes : List String :=
  ["template_string", "string_fragment", "escape_sequence", "jsx_text", "html_character_reference", "number", "regex",
    "regex_pattern", "regex_flags"]

def nameTypes : List String :=
  Kind.identifier.types ++ Kind.propertyName.types ++ Kind.typeReference.types

/-- The property of a member access that a call calls. -/
def IsCalled (above : List Tree) (u : Tree) : Prop :=
  u.label.field = some "property" ∧ ∃ access call rest, above = access :: call :: rest ∧
    access.label.type = "member_expression" ∧ access.label.field = some "function" ∧ call.label.type = "call_expression"

/-- The name of a method declaration. -/
def IsDeclared (above : List Tree) (u : Tree) : Prop :=
  u.label.field = some "name" ∧ ∃ declaration rest, above = declaration :: rest ∧
    declaration.Is Kind.methodDeclaration.types

/-- The value of an object property with the key `selector`. -/
def IsSelector (source : List UInt8) (above : List Tree) (u : Tree) : Prop :=
  u.label.field = some "value" ∧ ∃ pair rest, above = pair :: rest ∧ pair.Is Kind.propertyAssignment.types ∧
    Node.ownerKey source pair.children = .ok (some "selector")

/-- **A protected place**, by what stands there and around it. -/
inductive Protected (o : Options) (source : List UInt8) (above : List Tree) (u : Tree) : Prop
  | comment (hu : u.Is Kind.comment.types)
  | literal (hu : u.Is literalTypes)
  | runtimeGlobal (hu : u.Is nameTypes)
      (htext : ∃ text ∈ Decision.runtimeGlobals, Node.textBetween source u.label.start u.label.stop = .ok text)
  | propertyName (hu : u.Is Kind.propertyName.types) (hcalled : ¬IsCalled above u) (hdeclared : ¬IsDeclared above u)
  | stringLiteral (hu : u.Is Kind.stringLiteral.types)
      (hselector : ¬(o.framework = .angular ∧ IsSelector source above u))
  | specifierName (hu : u.Is Kind.identifier.types) (specifier : Tree) (rest : List Tree) (habove : above = specifier :: rest)
      (hspecifier : specifier.Is (Kind.importSpecifier.types ++ Kind.exportSpecifier.types))
      (halias : u.label.field ≠ some "alias")
  | markupTag (hu : u.Is Kind.identifier.types) (tag : Tree) (rest : List Tree) (habove : above = tag :: rest)
      (htag : tag.Is Kind.markupElement.types) (hreact : o.framework ≠ .react)

theorem kindAbove_eq_methodCall_iff : Tree.kindAbove above = .methodCall ↔ ∃ access call rest,
    above = access :: call :: rest ∧ access.label.type = "member_expression" ∧ access.label.field = some "function" ∧
      call.label.type = "call_expression" := by
  cases above with
  | nil =>
    refine iff_of_false (by decide) ?_
    rintro ⟨_, _, _, h, -⟩
    cases h
  | cons access above =>
    rw [Tree.kindAbove, Tree.kindAt_eq_methodCall_iff]
    cases above with
    | nil =>
      refine iff_of_false (fun h => by cases h.2.2) ?_
      rintro ⟨_, _, _, h, -⟩
      cases h
    | cons call rest =>
      constructor
      · rintro ⟨htype, hfield, hcall⟩
        exact ⟨access, call, rest, rfl, htype, hfield, Option.some.inj hcall⟩
      · rintro ⟨_, _, _, h, htype, hfield, hcall⟩
        cases h
        exact ⟨htype, hfield, congrArg some hcall⟩

theorem kindAbove_eq_iff {k : Kind} (hk : k.isTyped = true) :
    Tree.kindAbove above = k ↔ ∃ parent rest, above = parent :: rest ∧ parent.Is k.types := by
  cases above with
  | nil =>
    constructor
    · rintro rfl
      cases hk
    · rintro ⟨_, _, h, -⟩
      cases h
  | cons parent above =>
    rw [Tree.kindAbove, Tree.kindAt_eq_iff hk]
    constructor
    · exact fun h => ⟨parent, above, rfl, h⟩
    · rintro ⟨_, _, h, hparent⟩
      cases h
      exact hparent

/-! ## The decision about a protected token -/

def placeContext (o : Options) (above : List Tree) (u : Tree) (text : String) (owner : Option String) : Context :=
  { kind := Tree.kindAt above u, parent := Tree.kindAbove above, slot := u.label.field, text, framework := o.framework,
    owner }

theorem action_of_kind {c : Context} (h : c.kind = .comment ∨ c.kind = .templateLiteral ∨ c.kind = .other) :
    (Decision.of c).action = .skip := by
  unfold Decision.of
  rcases h with h | h | h <;> rw [h] <;> rfl

theorem action_of_runtimeGlobal {c : Context} (hkind : c.kind.isNameLike = true)
    (htext : c.text ∈ Decision.runtimeGlobals) : (Decision.of c).action = .skip := by
  unfold Decision.of
  rw [if_pos (by simp [hkind, htext])]
  rfl

theorem action_of_propertyName {c : Context} (hkind : c.kind = .propertyName)
    (hcalled : ¬(c.parent = .methodCall ∧ c.slot = some "property"))
    (hdeclared : ¬(c.parent = .methodDeclaration ∧ c.slot = some "name")) : (Decision.of c).action = .skip := by
  unfold Decision.of
  split
  · rfl
  · rw [hkind]
    dsimp only
    rw [if_neg (by simpa using hcalled), if_neg (by simpa using hdeclared)]
    rfl

theorem action_of_stringLiteral {c : Context} (hkind : c.kind = .stringLiteral)
    (hselector : ¬(c.framework = .angular ∧ c.parent = .propertyAssignment ∧ c.slot = some "value" ∧
      c.owner = some "selector")) : (Decision.of c).action = .skip := by
  have hkey : ∀ key, key ∈ Decision.metadataKeys c.framework → c.framework = .angular ∧ key = "selector" := by
    cases c.framework <;> simp [Decision.metadataKeys]
  have hcond : (c.parent == .propertyAssignment && c.slot == some "value"
      && c.owner.any (Decision.metadataKeys c.framework).contains) = false := by
    by_contra hcond
    simp only [Bool.not_eq_false, Bool.and_eq_true, beq_iff_eq, Option.any_eq_true, List.contains_iff_mem] at hcond
    obtain ⟨⟨hparent, hslot⟩, key, howner, hmem⟩ := hcond
    obtain ⟨hframework, rfl⟩ := hkey key hmem
    exact hselector ⟨hframework, hparent, hslot, howner⟩
  unfold Decision.of
  rw [hkind, if_neg (by simp [Kind.isNameLike])]
  dsimp only
  rw [hcond]
  rfl

theorem action_of_specifierName {c : Context} (hkind : c.kind = .identifier)
    (hparent : c.parent = .importSpecifier ∨ c.parent = .exportSpecifier) (halias : c.slot ≠ some "alias") :
    (Decision.of c).action = .skip := by
  unfold Decision.of
  split
  · rfl
  · rcases hparent with hparent | hparent <;> rw [hkind, hparent] <;> dsimp only <;>
      rw [if_neg (by simpa using halias)] <;> rfl

theorem action_of_markupTag {c : Context} (hkind : c.kind = .identifier) (hparent : c.parent = .markupElement)
    (hreact : c.framework ≠ .react) : (Decision.of c).action = .skip := by
  unfold Decision.of
  split
  · rfl
  · rw [hkind, hparent]
    dsimp only
    rw [if_neg (by simpa using hreact)]
    rfl

theorem kindAt_of_literal (hu : u.Is literalTypes) (htoken : u.children = []) :
    Tree.kindAt above u = .templateLiteral ∨ Tree.kindAt above u = .other := by
  obtain ⟨hnamed, htype⟩ := hu
  unfold Tree.kindAt
  rw [hnamed, htoken]
  simp only [literalTypes, List.mem_cons, List.not_mem_nil, or_false] at htype
  rcases htype with h | h | h | h | h | h | h | h | h <;> rw [h] <;> first | exact .inl rfl | exact .inr rfl

theorem isNameLike_kindAt (hu : u.Is nameTypes) : (Tree.kindAt above u).isNameLike = true := by
  obtain ⟨hnamed, htype⟩ := hu
  rw [nameTypes, List.mem_append, List.mem_append] at htype
  rcases htype with (htype | htype) | htype
  · rw [(Tree.kindAt_eq_iff rfl).2 ⟨hnamed, htype⟩]
    rfl
  · rw [(Tree.kindAt_eq_iff rfl).2 ⟨hnamed, htype⟩]
    rfl
  · rw [(Tree.kindAt_eq_iff rfl).2 ⟨hnamed, htype⟩]
    rfl

/-- **A protected token is skipped**, whatever the table says. -/
theorem Protected.action_eq_skip (h : Protected o source above u) (htoken : u.IsToken) {text : String}
    {owner : Option String} (howner : Tree.ownerAbove source above = .ok owner)
    (htext : Node.textBetween source u.label.start u.label.stop = .ok text) :
    (Decision.of (placeContext o above u text owner)).action = .skip := by
  cases h with
  | comment hu => exact action_of_kind (.inl ((Tree.kindAt_eq_iff rfl).2 hu))
  | literal hu =>
    have hchildren : u.children = [] := by
      refine htoken.resolve_right fun hstring => ?_
      have htype := hu.2
      rw [List.mem_singleton.1 hstring.2] at htype
      revert htype
      decide
    exact action_of_kind (.inr (kindAt_of_literal hu hchildren))
  | runtimeGlobal hu htext' =>
    obtain ⟨text', hglobal, htext'⟩ := htext'
    obtain rfl := Except.ok.inj (htext.symm.trans htext')
    exact action_of_runtimeGlobal (isNameLike_kindAt hu) hglobal
  | propertyName hu hcalled hdeclared =>
    refine action_of_propertyName ((Tree.kindAt_eq_iff rfl).2 hu) (fun h => hcalled ⟨h.2, ?_⟩) fun h =>
      hdeclared ⟨h.2, ?_⟩
    · exact kindAbove_eq_methodCall_iff.1 h.1
    · exact (kindAbove_eq_iff rfl).1 h.1
  | stringLiteral hu hselector =>
    refine action_of_stringLiteral ((Tree.kindAt_eq_iff rfl).2 hu) fun ⟨hframework, hparent, hslot, hkey⟩ =>
      hselector ⟨hframework, hslot, ?_⟩
    obtain ⟨pair, rest, rfl, hpair⟩ := (kindAbove_eq_iff rfl).1 hparent
    refine ⟨pair, rest, rfl, hpair, ?_⟩
    rw [Tree.ownerAbove, Node.ownerBelow, if_pos (by rw [beq_iff_eq]; exact hparent)] at howner
    rw [howner]
    exact congrArg Except.ok hkey
  | specifierName hu specifier rest habove hspecifier halias =>
    refine action_of_specifierName ((Tree.kindAt_eq_iff rfl).2 hu) ?_ halias
    obtain ⟨hnamed, htype⟩ := hspecifier
    rcases List.mem_append.1 htype with htype | htype
    · exact .inl ((kindAbove_eq_iff rfl).2 ⟨specifier, rest, habove, hnamed, htype⟩)
    · exact .inr ((kindAbove_eq_iff rfl).2 ⟨specifier, rest, habove, hnamed, htype⟩)
  | markupTag hu tag rest habove htag hreact =>
    exact action_of_markupTag ((Tree.kindAt_eq_iff rfl).2 hu) ((kindAbove_eq_iff rfl).2 ⟨tag, rest, habove, htag⟩) hreact

/-! ## The parts of a place -/

theorem exists_allParts_eq {gap : List Char} {l₂ : List (List Char × Node)} : ∀ {l₁ : List (List Char × Node)} {start : Nat}
    (g : Twister), Node.Placed start (l₁ ++ (gap, n) :: l₂) → ∃ before after,
      allParts t o g (l₁ ++ (gap, n) :: l₂) = before ++ nodeParts t o n ++ after ∧
        start + (Part.source before).length = n.start
  | [], start, g, h => by
    rw [List.nil_append, allParts, h.1]
    split
    · refine ⟨copies (encode gap) ++ [swap [] (decorate n (g.choose Standard.quotes "").1).text],
        allParts t o (g.choose Standard.quotes "").2 l₂, ?_, ?_⟩
      · simp
      · rw [source_append, source_copies]
        simp [Part.source]
    · exact ⟨copies (encode gap), allParts t o g l₂, by simp, by rw [source_copies]⟩
  | (gap', m) :: l₁, start, g, h => by
    obtain ⟨hstart, hstop, hrest⟩ := h
    have hm := (nodeParts_spec (t := t) (o := o) hstop).1
    rw [List.cons_append, allParts]
    split
    · obtain ⟨before, after, hparts, hlength⟩ := exists_allParts_eq (g.choose Standard.quotes "").2 hrest
      refine ⟨copies (encode gap') ++ (swap [] (decorate m (g.choose Standard.quotes "").1).text ::
        (nodeParts t o m ++ before)), after, ?_, ?_⟩
      · dsimp only
        rw [hparts]
        simp
      · simp only [source_append, source_copies, Part.source, hm, List.length_append, List.nil_append]
        omega
    · obtain ⟨before, after, hparts, hlength⟩ := exists_allParts_eq g hrest
      refine ⟨copies (encode gap') ++ (nodeParts t o m ++ before), after, ?_, ?_⟩
      · rw [hparts]
        simp
      · simp only [source_append, source_copies, hm, List.length_append]
        omega

/-- A token that the options keep and the rules skip is copied. -/
theorem nodeParts_of_skip (ho : o.preserveComments = true) (hskip : (decide o n).action = .skip) :
    nodeParts t o n = copies (encode n.text.toList) := by
  refine nodeParts_of_no_edit ?_
  unfold visitLeaf
  rw [treat_of_skip hskip, ho]
  split <;> rfl

theorem decide_of_called (hkind : n.kind = .propertyName) (hparent : n.parent = .methodCall)
    (hslot : n.slot = some "property") :
    (decide o n).action = .skip ∨ decide o n = Decision.substitute "called method" (some .builtinMethod) := by
  unfold decide Decision.of
  split
  · exact .inl rfl
  · dsimp only
    rw [hkind]
    exact .inr (if_pos (by simp [hparent, hslot]))

/-- The name of a called method is copied or gives way to its entry among the methods. -/
theorem nodeParts_of_called (hleaf : n.isLeaf = true) (hkind : n.kind = .propertyName) (hparent : n.parent = .methodCall)
    (hslot : n.slot = some "property") (hstop : n.stop = n.start + (encode n.text.toList).length) :
    nodeParts t o n = copies (encode n.text.toList) ∨ ∃ form, (t.entries .builtinMethod).get? n.text = some form ∧
      nodeParts t o n = [swap (encode n.text.toList) form] := by
  have hcomment : (n.kind == .comment) = false := by simp [hkind]
  cases htreat : treat t o n with
  | keep => exact .inl (nodeParts_of_no_edit (by simp [visitLeaf, hcomment, htreat]))
  | refuse => exact .inl (nodeParts_of_no_edit (by simp [visitLeaf, hcomment, htreat]))
  | change e =>
    rcases decide_of_called (o := o) hkind hparent hslot with hdecide | hdecide
    · rw [treat_of_skip hdecide] at htreat
      cases htreat
    rcases treat_eq_change htreat with ⟨haction, -⟩ | ⟨-, hstring, -⟩ | ⟨-, -, rfl, hne, -⟩
    · rw [hdecide] at haction
      cases haction
    · rw [hkind] at hstring
      cases hstring
    · have hform : formOf t o n (decide o n).category = ((t.entries .builtinMethod).get? n.text).getD n.text := by
        have hplain : decorated? t o n = none := by simp [decorated?, hparent]
        rw [hdecide, formOf_eq, hplain]
        rfl
      rw [hform] at hne htreat
      cases hget : (t.entries .builtinMethod).get? n.text with
      | none =>
        rw [hget] at hne
        exact absurd rfl hne
      | some form =>
        rw [hget] at htreat
        exact .inr ⟨form, rfl, nodeParts_of_whole hleaf hstop htreat⟩

/-! ## The output -/

section
variable {cs tail : List Char} {tree : Tree} {nodes : List Node} {l : List (List Char × Node)}

theorem among_of_mem (h : Walked cs tree nodes l tail) (hn : n ∈ nodes) (hleaf : n.isLeaf = true) (g : Twister) :
    Part.Among (nodeParts t o n) (allParts t o g l ++ copies (encode tail)) n.start := by
  obtain ⟨n₁, n₂, hsplit⟩ := List.append_of_mem hn
  obtain ⟨l₁, gap, l₂, rfl, -, -⟩ := h.exists_split_at hsplit hleaf
  obtain ⟨before, after, hparts, hlength⟩ := exists_allParts_eq (t := t) (o := o) g h.placed
  exact ⟨before, after ++ copies (encode tail), by rw [hparts, List.append_assoc], by omega⟩

theorem stop_eq_of_mem (h : Walked cs tree nodes l tail) (hn : n ∈ nodes) (hleaf : n.isLeaf = true) :
    n.stop = n.start + (encode n.text.toList).length := by
  have hmem : n ∈ l.map Prod.snd := by
    rw [h.spots_eq]
    exact List.mem_map.2 ⟨n, hn, Node.spot_of_isLeaf hleaf⟩
  obtain ⟨q, hq, rfl⟩ := List.mem_map.1 hmem
  obtain ⟨pre, post, -, hstart, hstop⟩ := h.placed.spells tail [] hq
  rw [hstop, hstart, encode_append, List.length_append]

/-- **The parts of all nodes and of the rest are those of the source and of the output.** -/
theorem target_allParts (h : Walked cs tree nodes l tail) {g : Twister} {out : Outcome}
    (hrun : (convert t o g (encode cs) tree).1 = .ok out) :
    Part.source (allParts t o g l ++ copies (encode tail)) = encode cs ∧
      Part.target (allParts t o g l ++ copies (encode tail)) = .ok (bytesOf out.code) := by
  obtain ⟨hsource, -⟩ := allParts_spec (t := t) (o := o) g h.placed
  obtain ⟨bytes, ds, htarget, hdecode, rfl⟩ := (h.convert_eq_ok_iff g).1 hrun
  constructor
  · rw [source_append, source_copies, hsource, ← encode_append, ← h.text_eq]
  · rw [htarget, bytesOf, String.toList_ofList, encode_of_decodeFrom _ (Nat.le_refl _) hdecode]

end

/-- **Protected places stay.**  Whatever the table maps, when a source is converted and comments are kept, the output is
made of parts of the source, copied or replaced, in such a way that every protected token is copied at its place, and the
name of a called method is copied or replaced by its entry among the methods. -/
theorem protected_stays {source : String} {tree : Tree} (hwf : tree.WellFormed source.toList)
    (ho : o.preserveComments = true) (t : Table) (g : Twister) {out : Outcome}
    (hrun : (convert t o g (bytesOf source) tree).1 = .ok out) :
    ∃ parts, Part.source parts = bytesOf source ∧ Part.target parts = .ok (bytesOf out.code) ∧
      ∀ above u, tree.Reaches above u → u.IsToken →
        let bytes := slice (bytesOf source) u.label.start u.label.stop
        (Protected o (bytesOf source) above u → Part.Among (copies bytes) parts u.label.start) ∧
        (u.Is Kind.propertyName.types → IsCalled above u → Part.Among (copies bytes) parts u.label.start ∨
          ∃ name form, bytes = bytesOf name ∧ (t.entries .builtinMethod).get? name = some form ∧
            Part.Among [swap bytes form] parts u.label.start) := by
  obtain ⟨nodes, l, tail, hwalked⟩ := exists_walked hwf
  obtain ⟨hsource, htarget⟩ := target_allParts hwalked hrun
  refine ⟨allParts t o g l ++ copies (encode tail), hsource, htarget, fun above u hreaches htoken => ?_⟩
  obtain ⟨owner, text, howner, htext, hmem⟩ := hreaches.exists_node hwalked.nodes_eq htoken
  have hbytes : slice (bytesOf source) u.label.start u.label.stop = encode text.toList :=
    (bytesOf_of_decodeString htext).symm
  have hamong := among_of_mem (t := t) (o := o) hwalked hmem rfl g
  dsimp only
  rw [hbytes]
  constructor
  · intro hprotected
    have hskip : (decide o (Node.ofLabel (bytesOf source) (Tree.kindAt above u) (Tree.kindAbove above) owner u.label true
        text)).action = .skip := hprotected.action_eq_skip htoken howner htext
    exact nodeParts_of_skip ho hskip ▸ hamong
  · intro hu hcalled
    have hkind : Tree.kindAt above u = .propertyName := (Tree.kindAt_eq_iff rfl).2 hu
    rcases nodeParts_of_called (t := t) (o := o) rfl hkind (kindAbove_eq_methodCall_iff.2 hcalled.2) hcalled.1
      (stop_eq_of_mem hwalked hmem rfl) with hparts | ⟨form, hform, hparts⟩
    · rw [hparts] at hamong
      exact .inl hamong
    · rw [hparts] at hamong
      exact .inr ⟨text, form, rfl, hform, hamong⟩

/-- In a call of a method of a runtime global, the global stays although the table has a form for it, and the method gives
way to its form among the methods, not to that among the keywords. -/
theorem protected_stays_fs_log :
    let t := Table.ofLists [(.keyword, [("fs", "files"), ("log", "roll")]), (.builtinMethod, [("log", "shout")])]
    let fs : Tree := .token "identifier" true 0 2 "object"
    let log : Tree := .token "property_identifier" true 3 6 "property"
    let access : Tree := .inner "member_expression" 0 6 "function" [fs, .token "." false 2 3, log]
    let tree : Tree := .inner "call_expression" 0 8 none
      [access, .inner "arguments" 6 8 "arguments" [.token "(" false 6 7, .token ")" false 7 8]]
    tree.WellFormed "fs.log()".toList ∧ ∀ g, ∃ out, (convert t {} g (bytesOf "fs.log()") tree).1 = .ok out ∧
      out.code = "fs.shout()" ∧ ∃ parts, Part.target parts = .ok (bytesOf out.code) ∧
        Part.Among (copies (bytesOf "fs")) parts 0 ∧
        (Part.Among (copies (bytesOf "log")) parts 3 ∨ ∃ name form, bytesOf "log" = bytesOf name ∧
          (t.entries .builtinMethod).get? name = some form ∧ Part.Among [swap (bytesOf "log") form] parts 3) := by
  intro t fs log access tree
  have hwf : tree.WellFormed "fs.log()".toList := by decide
  let nodes : List Node := [.inner .callExpression .other "call_expression" 0 8,
    .inner .methodCall .callExpression "member_expression" 0 6 "function",
    .token .identifier .methodCall "identifier" "fs" 0 2 "object", .token .operator .methodCall "." "." 2 3,
    .token .propertyName .methodCall "property_identifier" "log" 3 6 "property",
    .inner .other .callExpression "arguments" 6 8 "arguments", .token .operator .other "(" "(" 6 7,
    .token .operator .other ")" ")" 7 8]
  have hnodes : Node.ofTree (bytesOf "fs.log()") tree = .ok nodes := by decide +kernel
  have hfs : Node.textBetween (bytesOf "fs.log()") 0 2 = .ok "fs" := by cbv
  have hrun : ∀ g, (convert t {} g (bytesOf "fs.log()") tree).1 = .ok ⟨"fs.shout()", []⟩ := by
    intro g
    have hvisit : visit t {} g nodes = ([⟨3, 6, "shout"⟩], [], g) := rfl
    have happly : Edit.applyAll (bytesOf "fs.log()") [⟨3, 6, "shout"⟩] = .ok "fs.shout()" := by cbv
    exact convert_eq_ok_of_visit hnodes hvisit happly
  have haccessAt : tree.Reaches [tree] access := .child .root (by decide) (by simp [Tree.children, tree, Tree.inner])
  refine ⟨hwf, fun g => ⟨_, hrun g, rfl, ?_⟩⟩
  obtain ⟨parts, -, htarget, hplaces⟩ := protected_stays (o := {}) hwf rfl t g (hrun g)
  refine ⟨parts, htarget, ?_, ?_⟩
  · refine (hplaces [access, tree] fs (.child haccessAt (by decide) (by simp [Tree.children, access, Tree.inner])) (.inl rfl)).1 ?_
    exact .runtimeGlobal (by decide) ⟨"fs", by decide, hfs⟩
  · refine (hplaces [access, tree] log (.child haccessAt (by decide) (by simp [Tree.children, access, Tree.inner])) (.inl rfl)).2
      (by decide) ?_
    exact ⟨rfl, access, tree, [], rfl, rfl, rfl, rfl⟩

end Forward
end Argot
