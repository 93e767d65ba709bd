import Argot.RoundTrip
/-!
# Calls — what one call of a session does

A call takes the table of its key, which making the table leaves as it is (`table_ensure`).  Where a parser has no effects,
a source that parses has what conversion makes of it for its outcome (`forward_eq`, `reverse_eq`), and the check of a round
trip compares the tokens before and after (`check_eq`).
-/
namespace Argot
namespace Session

variable {r : Session} {parse : Parser Id} {options : Option Options} {o : Options} {tree : Tree} {source code : String}

theorem keyOf_ensure (r : Session) (o o' : Options) : (r.ensure (r.keyOf o)).keyOf o' = r.keyOf o' := by
  unfold ensure keyOf
  cases hc : r.custom with
  | none => simp [setTable, hc]
  | some t => simp [setTable]

theorem table_ensure (r : Session) (key : Option Framework) : (r.ensure key).table key = r.table key := by
  unfold ensure
  cases key with
  | none => rfl
  | some f => simp [setTable, table]

theorem options_ensure (r : Session) (key : Option Framework) : (r.ensure key).options = r.options := by
  cases key <;> rfl

theorem generatorFor_ensure (r : Session) (key : Option Framework) (o : Options) :
    (r.ensure key).generatorFor o = r.generatorFor o := by
  cases key <;> rfl

theorem exists_generatorFor (r : Session) (h : o.seed ≠ some .missing) : ∃ g, r.generatorFor o = .ok g := by
  unfold generatorFor
  cases r.generator with
  | some g => exact ⟨g, rfl⟩
  | none =>
    cases hseed : o.seed with
    | none => exact ⟨_, rfl⟩
    | some seed =>
      cases seed with
      | number n => exact ⟨_, rfl⟩
      | missing => exact (h hseed).elim

/-- **A source that parses has what conversion makes of it for its outcome.** -/
theorem forward_eq {g : Twister} (ho : options.getD r.options = o)
    (hparse : parse (Sniff.dialect source o) source = tree) (hfault : tree.fault? = none)
    (hg : r.generatorFor o = .ok g) : r.forward parse source options =
      let converted := Forward.convert (r.table (r.keyOf o)) o g (Text.bytesOf source) tree
      (converted.1.mapError .edit, (r.ensure (r.keyOf o)).keepGenerator converted.2) := by
  unfold forward
  simp only [ho, bind, pure]
  rw [hparse, hfault]
  dsimp only
  rw [generatorFor_ensure, hg, table_ensure]

/-- **A text whose host text parses has that text for its outcome.** -/
theorem reverse_eq (ho : options.getD r.options = o) (hcode : Reverse.convert (r.table (r.keyOf o)) source = .text code)
    (hparse : parse (Sniff.dialect code o) code = tree) (hfault : tree.fault? = none) :
    r.reverse parse source options = (.ok { code }, r.setTable (r.keyOf o) (r.table (r.keyOf o)).warm) := by
  unfold reverse
  simp only [ho, hcode, bind, pure, Spelling.encodable]
  rw [hparse, hfault]

end Session

namespace RoundTrip

variable {r r' : Session} {parse : Parser Id} {options : Option Options} {o : Options} {source : String}
  {there back : Outcome}

theorem firstDifference?_self {α : Type} [DecidableEq α] : ∀ (l : List α) (i : Nat), firstDifference? i l l = none
  | [], _ => rfl
  | a :: l, i => by
    rw [firstDifference?, if_pos rfl]
    exact firstDifference?_self l (i + 1)

theorem mismatch?_self (l : List Token) : mismatch? l l = none := by
  unfold mismatch?
  rw [firstDifference?_self]
  exact if_pos rfl

theorem tokens_eq {l : List Token} {tree : Tree} {dialect : Dialect} (hparse : parse dialect source = tree)
    (hfault : tree.fault? = none) (h : Token.ofTree (Text.bytesOf source) tree = .ok l) :
    tokens parse dialect source = Except.ok l := by
  unfold tokens
  simp only [bind, pure]
  rw [hparse, hfault, h]
  rfl

/-- **The check of a round trip compares the tokens before and after.** -/
theorem check_eq {before after : List Token} (ho : options.getD r.options = o)
    (hforward : r.forward parse source (some o) = (.ok there, r')) (hthere : there.hasErrors = false)
    (hreverse : (r'.reverse parse there.code (some o)).1 = .ok back) (hback : back.hasErrors = false)
    (hbefore : tokens parse (Sniff.dialect source o) source = Except.ok before)
    (hafter : tokens parse (Sniff.dialect back.code o) back.code = Except.ok after) :
    (check parse r source options).1 = .ok (report there back before after) := by
  obtain ⟨outcome, r'', hrun⟩ : ∃ outcome r'', r'.reverse parse there.code (some o) = (outcome, r'') := ⟨_, _, rfl⟩
  rw [hrun] at hreverse
  obtain rfl : outcome = .ok back := hreverse
  unfold check
  simp only [ho, bind, pure, hforward, hthere, hrun, hback, hbefore, hafter, Bool.false_eq_true, if_false, Except.map]

end RoundTrip
end Argot
