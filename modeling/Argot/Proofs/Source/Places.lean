import Argot.Proofs.Source.Layout
/-!
# Places — what stands where in a tree

A place is a node of a tree with the nodes above it.  The walk makes of a token what its place says: its kind and that of
its parent follow from types and fields alone (`kindAt_eq_iff`, `kindAt_eq_methodCall_iff`), and the key that owns it is
that of the object property right above it (`Reaches.exists_node`), which is read off the tree (`ownerAbove_eq_ok_iff`).
-/
namespace Argot

namespace Kind

/-- The types whose named nodes are of a kind, wherever they stand. -/
def types : Kind → List String
  | .identifier => ["identifier", "statement_identifier"]
  | .propertyName => ["property_identifier", "private_property_identifier", "shorthand_property_identifier",
      "shorthand_property_identifier_pattern"]
  | .typeReference => ["type_identifier"]
  | .stringLiteral => ["string"]
  | .templateLiteral => ["template_string"]
  | .comment => ["comment", "html_comment"]
  | .decorator => ["decorator"]
  | .propertyAssignment => ["pair"]
  | .methodDeclaration => ["method_definition", "method_signature", "abstract_method_signature"]
  | .functionDeclaration => ["function_declaration", "generator_function_declaration"]
  | .classDeclaration => ["class_declaration", "abstract_class_declaration"]
  | .variableDeclaration => ["lexical_declaration", "variable_declaration", "variable_declarator"]
  | .markupElement => ["jsx_opening_element", "jsx_closing_element", "jsx_self_closing_element"]
  | .importSpecifier => ["import_specifier"]
  | .exportSpecifier => ["export_specifier"]
  | _ => []

/-- The kinds that a node has by its type alone. -/
def isTyped : Kind → Bool
  | .decorator => false
  | k => !k.types.isEmpty

variable {type : String} {named childless : Bool} {slot parentType : Option String} {k : Kind}

theorem direct?_eq_some_iff : direct? type = some k ↔ type ∈ k.types := by
  constructor
  · intro h
    unfold direct? at h
    split at h <;> cases h <;> decide
  · cases k <;> simp only [types, List.mem_cons, List.not_mem_nil, or_false, false_implies] <;> rintro h <;>
      rcases h with rfl | rfl | rfl | rfl <;> rfl

/-- **A kind that goes by its type alone** is that of the named nodes of its types. -/
theorem of_eq_iff (hk : k.isTyped = true) :
    Kind.of type named childless slot parentType = k ↔ named = true ∧ type ∈ k.types := by
  rw [← direct?_eq_some_iff]
  unfold Kind.of
  split
  · rename_i htype
    obtain rfl : type = "member_expression" := by simpa using htype
    refine iff_of_false (fun h => ?_) fun h => by cases h.2
    split at h <;> subst h <;> cases hk
  split
  · rename_i htype
    obtain rfl : type = "call_expression" := by simpa using htype
    refine iff_of_false (fun h => ?_) fun h => by cases h.2
    split at h <;> subst h <;> cases hk
  have hrest : ∀ k', k'.isTyped = false → k' ≠ k := fun k' hk' h => by
    rw [h, hk] at hk'
    cases hk'
  cases named with
  | false =>
    simp only [Bool.false_eq_true, if_false, false_and, iff_false]
    split_ifs <;> exact hrest _ rfl
  | true =>
    simp only [if_true, true_and]
    cases direct? type with
    | some k' => simp
    | none =>
      simp only [reduceCtorEq, iff_false]
      split_ifs <;> exact hrest _ rfl

theorem of_eq_methodCall_iff : Kind.of type named childless slot parentType = .methodCall ↔
    type = "member_expression" ∧ slot = some "function" ∧ parentType = some "call_expression" := by
  unfold Kind.of
  split
  · rename_i htype
    split
    · rename_i hcall
      simpa [and_comm, (by simpa using htype : type = "member_expression")] using hcall
    · rename_i hcall
      simpa [and_comm, (by simpa using htype : type = "member_expression")] using hcall
  · rename_i htype
    refine iff_of_false (fun h => ?_) fun h => htype (by simp [h.1])
    split at h
    · split at h <;> cases h
    · cases hdirect : (if named then direct? type else none) with
      | some k =>
        rw [hdirect] at h
        dsimp only at h
        subst h
        cases named with
        | false => cases hdirect
        | true =>
          have := direct?_eq_some_iff.1 hdirect
          simp [types] at this
      | none =>
        rw [hdirect] at h
        dsimp only at h
        split_ifs at h

end Kind

namespace Tree

/-- A named node of one of some types. -/
def Is (u : Tree) (types : List String) : Prop :=
  u.label.named = true ∧ u.label.type ∈ types

instance (u : Tree) (types : List String) : Decidable (u.Is types) :=
  inferInstanceAs (Decidable (_ ∧ _))

/-- What the walk does not enter: a node without children, or a string literal. -/
def IsToken (u : Tree) : Prop :=
  u.children = [] ∨ u.Is Kind.stringLiteral.types

/-- **A place in a tree**: a node that the walk comes to, with the nodes above it, the nearest first. -/
inductive Reaches (root : Tree) : (above : List Tree) → Tree → Prop
  | root : Reaches root [] root
  | child {above : List Tree} {u v : Tree} (h : Reaches root above u) (hu : ¬u.Is Kind.stringLiteral.types)
      (hv : v ∈ u.children) : Reaches root (u :: above) v

def typeAbove (above : List Tree) : Option String :=
  above.head?.map fun u => u.label.type

def kindAt (above : List Tree) (u : Tree) : Kind :=
  Kind.of u.label.type u.label.named u.children.isEmpty u.label.field (typeAbove above)

def kindAbove : List Tree → Kind
  | [] => .other
  | u :: above => kindAt above u

/-- The owner that the walk finds for a place. -/
def ownerAbove (source : List UInt8) : List Tree → Except Text.Utf8Error (Option String)
  | [] => .ok none
  | u :: above => Node.ownerBelow source (kindAt above u) u.children

/-- The first child in the field of keys. -/
def HasKey (u key : Tree) : Prop :=
  ∃ front back, u.children = front ++ key :: back ∧ key.label.field = some "key" ∧
    ∀ t ∈ front, t.label.field ≠ some "key"

/-- **The key of an object property**: the text of the first child in the field of keys, without its quotes if it is a
string; there may be none. -/
inductive KeyedBy (source : List UInt8) (u : Tree) : Option String → Prop
  | nothing : (∀ t ∈ u.children, t.label.field ≠ some "key") → KeyedBy source u none
  | plain {key : Tree} {text : String} : u.HasKey key →
    Node.textBetween source key.label.start key.label.stop = .ok text →
    (key.label.type = "string" → text.length < 2) → KeyedBy source u (some text)
  | quoted {key : Tree} {first last : Char} {inner : List Char} : u.HasKey key → key.label.type = "string" →
    Node.textBetween source key.label.start key.label.stop = .ok (String.ofList (first :: (inner ++ [last]))) →
    KeyedBy source u (some (String.ofList inner))

/-- **Who owns a place**: the key of the object property right above it; below anything else, nobody. -/
def OwnedBy (source : List UInt8) : List Tree → Option String → Prop
  | [], owner => owner = none
  | u :: _, owner => if u.Is Kind.propertyAssignment.types then KeyedBy source u owner else owner = none

variable {root u : Tree} {above : List Tree} {source : List UInt8} {nodes : List Node}

theorem kindAt_eq_iff {k : Kind} (hk : k.isTyped = true) : kindAt above u = k ↔ u.Is k.types :=
  Kind.of_eq_iff hk

theorem kindAt_eq_methodCall_iff : kindAt above u = .methodCall ↔
    u.label.type = "member_expression" ∧ u.label.field = some "function" ∧ typeAbove above = some "call_expression" :=
  Kind.of_eq_methodCall_iff

/-! ## Owners -/

theorem find?_key_eq_some_iff {key : Tree} :
    (u.children.find? fun t => t.label.field == some "key") = some key ↔ u.HasKey key := by
  rw [List.find?_eq_some_iff_append]
  constructor
  · rintro ⟨hkey, front, back, hsplit, hfront⟩
    exact ⟨front, back, hsplit, by simpa using hkey, fun t ht => by simpa using hfront t ht⟩
  · rintro ⟨front, back, hsplit, hkey, hfront⟩
    exact ⟨by simpa using hkey, front, back, hsplit, fun t ht => by simpa using hfront t ht⟩

theorem HasKey.unique {key key' : Tree} (h : u.HasKey key) (h' : u.HasKey key') : key = key' :=
  Option.some.inj ((find?_key_eq_some_iff.2 h).symm.trans (find?_key_eq_some_iff.2 h'))

theorem exists_quoted {cs : List Char} (h : 2 ≤ cs.length) :
    ∃ first inner last, cs = first :: (inner ++ [last]) ∧ (cs.drop 1).dropLast = inner := by
  cases cs with
  | nil => simp at h
  | cons first rest =>
    rcases rest.eq_nil_or_concat with rfl | ⟨inner, last, rfl⟩
    · simp at h
    · exact ⟨first, inner, last, by rw [List.concat_eq_append], by simp⟩

theorem ownerKey_eq_ok_iff {owner : Option String} :
    Node.ownerKey source u.children = .ok owner ↔ KeyedBy source u owner := by
  unfold Node.ownerKey
  cases hfind : u.children.find? fun t => t.label.field == some "key" with
  | none =>
    have hnone : ∀ t ∈ u.children, t.label.field ≠ some "key" := fun t ht => by simpa using List.find?_eq_none.1 hfind t ht
    constructor
    · rintro ⟨⟩
      exact .nothing hnone
    · rintro (- | ⟨⟨front, back, hsplit, hkey, -⟩, -⟩ | ⟨⟨front, back, hsplit, hkey, -⟩, -⟩)
      · rfl
      all_goals exact absurd hkey (hnone _ (by rw [hsplit]; exact List.mem_append_right _ List.mem_cons_self))
  | some key =>
    have hkey := find?_key_eq_some_iff.1 hfind
    dsimp only
    constructor
    · intro h
      obtain ⟨text, htext, h⟩ := Node.bind_eq_ok_iff.1 h
      split at h <;> rename_i hquoted <;> obtain rfl := Except.ok.inj h
      · obtain ⟨htype, hlen⟩ : key.label.type = "string" ∧ 2 ≤ text.length := by simpa using hquoted
        obtain ⟨first, inner, last, htext', hinner⟩ := exists_quoted (String.length_toList ▸ hlen)
        rw [hinner]
        exact .quoted hkey htype (by rw [← htext', String.ofList_toList]; exact htext)
      · exact .plain hkey htext fun htype => by
          have : ¬(2 ≤ text.length) := fun hlen => hquoted (by simp [htype, hlen])
          omega
    · rintro (hnone | ⟨hkey', htext, hplain⟩ | ⟨hkey', htype, htext⟩)
      · obtain ⟨front, back, hsplit, hfield, -⟩ := hkey
        exact absurd hfield (hnone _ (by rw [hsplit]; exact List.mem_append_right _ List.mem_cons_self))
      · obtain rfl := hkey.unique hkey'
        rw [htext]
        change (if _ then _ else _) = _
        rw [if_neg (by simpa using hplain)]
        rfl
      · obtain rfl := hkey.unique hkey'
        rw [htext]
        change (if _ then _ else _) = _
        rw [if_pos (by simp [htype]; omega)]
        simp [pure, Except.pure]

/-- **The owner that the walk finds is the one that the tree says.** -/
theorem ownerAbove_eq_ok_iff {owner : Option String} : ownerAbove source above = .ok owner ↔ OwnedBy source above owner := by
  cases above with
  | nil => exact ⟨fun h => (Except.ok.inj h).symm, fun h => by rw [show owner = none from h]; rfl⟩
  | cons u above =>
    have hkind : kindAt above u = .propertyAssignment ↔ u.Is Kind.propertyAssignment.types := kindAt_eq_iff rfl
    rw [ownerAbove, Node.ownerBelow, OwnedBy]
    by_cases hpair : kindAt above u = .propertyAssignment
    · rw [if_pos (beq_iff_eq.2 hpair), if_pos (hkind.1 hpair), ownerKey_eq_ok_iff]
    · rw [if_neg (by rwa [beq_iff_eq]), if_neg (mt hkind.2 hpair), Except.ok.injEq, eq_comm]

theorem OwnedBy.unique {owner owner' : Option String} (h : OwnedBy source above owner) (h' : OwnedBy source above owner') :
    owner = owner' :=
  Except.ok.inj ((ownerAbove_eq_ok_iff.2 h).symm.trans (ownerAbove_eq_ok_iff.2 h'))

/-! ## What the walk makes of a place -/

theorem exists_preorder_of_mem {parentType : Option String} {parent : Kind} {owner : Option String} {v : Tree} :
    ∀ {ts : List Tree} {below : List Node}, Node.preorderAmong source parentType parent owner ts = .ok below → v ∈ ts →
    ∃ part, Node.preorder source parentType parent owner v = .ok part ∧ part ⊆ below
  | t :: ts, below, h, hv => by
    rw [Node.preorderAmong] at h
    obtain ⟨first, hfirst, h⟩ := Node.bind_eq_ok_iff.1 h
    obtain ⟨others, hothers, h⟩ := Node.bind_eq_ok_iff.1 h
    obtain rfl := Except.ok.inj h
    rcases List.mem_cons.1 hv with rfl | hv
    · exact ⟨first, hfirst, List.subset_append_left _ _⟩
    · obtain ⟨part, hpart, hsub⟩ := exists_preorder_of_mem hothers hv
      exact ⟨part, hpart, fun n hn => List.mem_append_right _ (hsub hn)⟩

/-- What the walk makes of a node that it enters. -/
theorem exists_preorderAmong_of_preorder {l : Label} {ts : List Tree} {owner : Option String} {part : List Node}
    (henter : (ts.isEmpty || kindAt above (.node l ts) == .stringLiteral) = false)
    (h : Node.preorder source (typeAbove above) (kindAbove above) owner (.node l ts) = .ok part) :
    ∃ inner below, ownerAbove source (.node l ts :: above) = .ok inner ∧
      Node.preorderAmong source (some l.type) (kindAt above (.node l ts)) inner ts = .ok below ∧ below ⊆ part := by
  change (if (ts.isEmpty || kindAt above (.node l ts) == .stringLiteral) = true then _ else _) = _ at h
  rw [if_neg (by rw [henter]; exact Bool.false_ne_true)] at h
  obtain ⟨inner, hinner, h⟩ := Node.bind_eq_ok_iff.1 h
  obtain ⟨below, hbelow, h⟩ := Node.bind_eq_ok_iff.1 h
  obtain rfl := Except.ok.inj h
  exact ⟨inner, below, hinner, hbelow, List.subset_cons_self _ _⟩

/-- **The walk comes to every place** with the type, the kind and the owner that are above it. -/
theorem Reaches.exists_preorder (hnodes : Node.ofTree source root = .ok nodes) (h : root.Reaches above u) :
    ∃ owner part, ownerAbove source above = .ok owner ∧
      Node.preorder source (typeAbove above) (kindAbove above) owner u = .ok part ∧ part ⊆ nodes := by
  induction h with
  | root => exact ⟨none, nodes, rfl, (Node.ofTree_eq_preorder source root).symm.trans hnodes, List.Subset.refl _⟩
  | @child above u v _ hu hv ih =>
    obtain ⟨owner, part, -, hwalk, hsub⟩ := ih
    obtain ⟨l, ts⟩ := u
    have hts : ts.isEmpty = false := by
      cases ts with
      | nil => cases hv
      | cons t ts => rfl
    have hkind : (kindAt above (.node l ts) == .stringLiteral) = false := by
      rw [beq_eq_false_iff_ne]
      exact fun h => hu ((kindAt_eq_iff rfl).1 h)
    obtain ⟨inner, below, hinner, hbelow, hsub'⟩ := exists_preorderAmong_of_preorder (by rw [hts, hkind]; rfl) hwalk
    obtain ⟨part', hpart', hsub''⟩ := exists_preorder_of_mem hbelow hv
    exact ⟨inner, part', hinner, hpart', fun n hn => hsub (hsub' (hsub'' hn))⟩

/-- **The token of a place**: the walk gives it the kind, the owner and the text of its place. -/
theorem Reaches.exists_node (hnodes : Node.ofTree source root = .ok nodes) (h : root.Reaches above u) (hu : u.IsToken) :
    ∃ owner text, ownerAbove source above = .ok owner ∧
      Node.textBetween source u.label.start u.label.stop = .ok text ∧
      Node.ofLabel source (kindAt above u) (kindAbove above) owner u.label true text ∈ nodes := by
  obtain ⟨owner, part, howner, hwalk, hsub⟩ := h.exists_preorder hnodes
  obtain ⟨l, ts⟩ := u
  have htoken : (ts.isEmpty || kindAt above (.node l ts) == .stringLiteral) = true := by
    rw [Bool.or_eq_true, beq_iff_eq, kindAt_eq_iff rfl, List.isEmpty_iff]
    exact hu
  change (if (ts.isEmpty || kindAt above (.node l ts) == .stringLiteral) = true then _ else _) = _ at hwalk
  rw [if_pos htoken] at hwalk
  obtain ⟨text, htext, hwalk⟩ := Node.bind_eq_ok_iff.1 hwalk
  obtain rfl := Except.ok.inj hwalk
  exact ⟨owner, text, howner, htext, hsub List.mem_cons_self⟩

end Tree
end Argot
