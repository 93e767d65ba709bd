import Argot.Proofs.Session.Calls
/-!
# Alike — sessions that convert alike

Calls leave tables that were made, form lists that were kept and a generator that went on.  None of it shows but the
generator: sessions that differ only so far have the same outcomes (`Alike.forward_eq`, `Alike.reverse_eq`), the
generator aside if sayings are put in.
-/
namespace Argot

namespace Table

/-- A table, or the same with its forms kept. -/
def SameWords (t t' : Table) : Prop :=
  t' = t ∨ t' = t.warm

variable {t t' t'' : Table} {o : Options}

theorem pattern?_warm (t : Table) : t.warm.pattern? = t.pattern? := by
  have hkept : t.warm.cachedForms = t.pattern? := rfl
  have hforms : t.warm.reversibleForms = t.reversibleForms := rfl
  cases hpattern : t.pattern? with
  | some forms =>
    unfold pattern?
    rw [hkept, hpattern]
  | none =>
    rw [hpattern] at hkept
    unfold pattern? at hpattern ⊢
    rw [hkept, hforms]
    cases hcached : t.cachedForms with
    | some forms => simp [hcached] at hpattern
    | none =>
      rw [hcached] at hpattern
      exact hpattern

theorem warm_warm (t : Table) : t.warm.warm = t.warm := by
  unfold warm
  rw [show Table.pattern? { t with cachedForms := t.pattern? } = t.pattern? from pattern?_warm t]

theorem SameWords.trans (h : t.SameWords t') (h' : t'.SameWords t'') : t.SameWords t'' := by
  rcases h with rfl | rfl
  · exact h'
  · rcases h' with rfl | rfl
    · exact .inr rfl
    · exact .inr t.warm_warm

theorem SameWords.reverse_convert (h : t.SameWords t') (text : String) :
    Reverse.convert t' text = Reverse.convert t text := by
  rcases h with rfl | rfl
  · rfl
  · unfold Reverse.convert
    rw [pattern?_warm]
    rfl

theorem SameWords.check (h : t.SameWords t') (text : String) : Validation.check t' text = Validation.check t text := by
  rcases h with rfl | rfl <;> rfl

theorem visit_warm (t : Table) (o : Options) : ∀ (nodes : List Node) (g : Twister),
    Forward.visit t.warm o g nodes = Forward.visit t o g nodes
  | [], _ => rfl
  | n :: rest, g => by
    have ih := visit_warm t o rest
    have hleaf : Forward.visitLeaf t.warm o n = Forward.visitLeaf t o n := rfl
    simp only [Forward.visit, ih, hleaf]

theorem SameWords.forward_convert (h : t.SameWords t') (o : Options) (g : Twister) (source : List UInt8) (tree : Tree) :
    Forward.convert t' o g source tree = Forward.convert t o g source tree := by
  rcases h with rfl | rfl
  · rfl
  · unfold Forward.convert
    simp only [visit_warm]

end Table

namespace Forward

variable {t : Table} {o : Options}

/-- Without sayings nothing is drawn from the generator. -/
theorem visit_of_noQuotes (h : o.randomQuotes = false) (g g' : Twister) : ∀ nodes : List Node,
    (visit t o g nodes).1 = (visit t o g' nodes).1 ∧ (visit t o g nodes).2.1 = (visit t o g' nodes).2.1
  | [] => ⟨rfl, rfl⟩
  | n :: rest => by
    obtain ⟨hedits, hnotes⟩ := visit_of_noQuotes h g g' rest
    unfold visit
    by_cases hdeclaration : n.kind.isDeclaration = true
    · rw [if_pos hdeclaration, if_pos hdeclaration, h]
      exact ⟨hedits, hnotes⟩
    · rw [if_neg hdeclaration, if_neg hdeclaration]
      by_cases hleaf : n.isLeaf = true
      · rw [if_pos hleaf, if_pos hleaf]
        exact ⟨congrArg ((visitLeaf t o n).1 ++ ·) hedits, congrArg ((visitLeaf t o n).2 ++ ·) hnotes⟩
      · rw [if_neg hleaf, if_neg hleaf]
        exact ⟨hedits, hnotes⟩

theorem convert_of_noQuotes (h : o.randomQuotes = false) (g g' : Twister) (source : List UInt8) (tree : Tree) :
    (convert t o g source tree).1 = (convert t o g' source tree).1 := by
  unfold convert
  cases Node.ofTree source tree with
  | error e => rfl
  | ok nodes =>
    obtain ⟨hedits, hnotes⟩ := visit_of_noQuotes (t := t) h g g' nodes
    dsimp only
    rw [hedits, hnotes]

end Forward

namespace Session

/-- Sessions that convert alike, but for what their generators draw. -/
structure Alike (r r' : Session) : Prop where
  options : r'.options = r.options
  custom : r'.custom.isSome = r.custom.isSome
  generator : r'.generator.isSome = r.generator.isSome
  words : ∀ o, (r.table (r.keyOf o)).SameWords (r'.table (r'.keyOf o))

/-- Where a call with these options uses a generator, it makes it from a seed. -/
def RepeatsWith (r : Session) (o : Options) : Prop :=
  o.randomQuotes = true → r.generator = none ∧ o.seed.isSome

/-- Sessions that convert a source to the same again: where a generator is used, each call makes it from a seed. -/
def Repeats (r : Session) : Prop :=
  r.options.randomQuotes = true → r.generator = none ∧ r.options.seed.isSome

variable {r r' r'' : Session} {parse : Parser Id} {source : String} {options : Option Options}

theorem Alike.refl (r : Session) : Alike r r :=
  ⟨rfl, rfl, rfl, fun _ => .inl rfl⟩

theorem Alike.trans (h : Alike r r') (h' : Alike r' r'') : Alike r r'' :=
  ⟨h'.options.trans h.options, h'.custom.trans h.custom, h'.generator.trans h.generator,
    fun o => (h.words o).trans (h'.words o)⟩

theorem Alike.keyOf (h : Alike r r') (o : Options) : r'.keyOf o = r.keyOf o := by
  unfold Session.keyOf
  rw [h.custom]

/-! ## What calls leave -/

theorem alike_setTable (o : Options) {t : Table} (h : (r.table (r.keyOf o)).SameWords t) :
    Alike r (r.setTable (r.keyOf o) t) := by
  cases hc : r.custom with
  | some table =>
    have hkey : ∀ o', r.keyOf o' = none := fun o' => by simp [Session.keyOf, hc]
    rw [hkey] at h ⊢
    refine ⟨rfl, by simp [setTable, hc], rfl, fun o' => ?_⟩
    rw [hkey]
    exact h
  | none =>
    have hkey : ∀ o', r.keyOf o' = some o'.framework := fun o' => by simp [Session.keyOf, hc]
    rw [hkey] at h ⊢
    refine ⟨rfl, rfl, rfl, fun o' => ?_⟩
    have hkey' : (r.setTable (some o.framework) t).keyOf o' = some o'.framework := by simp [setTable, Session.keyOf, hc]
    rw [hkey, hkey']
    by_cases hf : o'.framework = o.framework
    · rw [hf]
      simpa [setTable, table] using h
    · left
      simp [setTable, table, hf]

theorem alike_ensure (r : Session) (o : Options) : Alike r (r.ensure (r.keyOf o)) :=
  alike_setTable o (.inl rfl)

theorem alike_keepGenerator (r : Session) (g : Twister) : Alike r (r.keepGenerator g) :=
  ⟨rfl, rfl, by simp [keepGenerator], fun _ => .inl rfl⟩

theorem alike_forward (r : Session) (parse : Parser Id) (source : String) (options : Option Options := none) :
    Alike r (r.forward parse source options).2 := by
  unfold forward
  simp only [bind, pure]
  generalize options.getD r.options = o
  have hensure := alike_ensure r o
  cases (parse (Sniff.dialect source o) source).fault? with
  | some f => exact hensure
  | none =>
    cases (r.ensure (r.keyOf o)).generatorFor o with
    | error e => exact hensure
    | ok g => exact hensure.trans (alike_keepGenerator _ _)

theorem alike_reverse (r : Session) (parse : Parser Id) (source : String) (options : Option Options := none) :
    Alike r (r.reverse parse source options).2 := by
  unfold reverse
  simp only [bind, pure]
  generalize options.getD r.options = o
  have hwarm := alike_setTable (r := r) o (.inr rfl)
  cases (Reverse.convert (r.table (r.keyOf o)) source).encodable with
  | error e => exact hwarm
  | ok code =>
    dsimp only
    cases (parse (Sniff.dialect code o) code).fault? <;> exact hwarm

/-! ## Outcomes -/

/-- What a session makes of a source, every session like it makes of it, if a seed fixes what is drawn. -/
theorem Alike.forward_eq_with (h : Alike r r') (hr : r.RepeatsWith (options.getD r.options)) :
    (r'.forward parse source options).1 = (r.forward parse source options).1 := by
  unfold forward
  simp only [bind, pure, h.options]
  generalize options.getD r.options = o at hr ⊢
  cases (parse (Sniff.dialect source o) source).fault? with
  | some f => rfl
  | none =>
    rw [generatorFor_ensure, generatorFor_ensure, table_ensure, table_ensure]
    have hconvert := (h.words o).forward_convert o
    cases hg : r.generator with
    | none =>
      have hg' : r'.generator = none := by simpa [hg] using h.generator
      have hsame : r'.generatorFor o = r.generatorFor o := by
        unfold generatorFor
        rw [hg, hg']
      rw [hsame]
      cases r.generatorFor o with
      | error e => rfl
      | ok g =>
        dsimp only
        rw [hconvert]
    | some g =>
      obtain ⟨g', hg'⟩ : ∃ g', r'.generator = some g' := Option.isSome_iff_exists.1 (by simp [h.generator, hg])
      have hquotes : o.randomQuotes = false := Bool.eq_false_iff.2 fun hon => by
        rw [(hr hon).1] at hg
        cases hg
      unfold generatorFor
      rw [hg, hg']
      dsimp only
      rw [hconvert, Forward.convert_of_noQuotes hquotes g' g]

/-- What a session that repeats makes of a source, every session like it makes of it. -/
theorem Alike.forward_eq (h : Alike r r') (hr : r.Repeats) :
    (r'.forward parse source).1 = (r.forward parse source).1 :=
  h.forward_eq_with hr

theorem Alike.reverse_eq (h : Alike r r') :
    (r'.reverse parse source options).1 = (r.reverse parse source options).1 := by
  unfold reverse
  simp only [bind, pure, h.options]
  generalize options.getD r.options = o
  simp only [(h.words o).reverse_convert]
  cases (Reverse.convert (r.table (r.keyOf o)) source).encodable with
  | error e => rfl
  | ok code =>
    dsimp only
    cases (parse (Sniff.dialect code o) code).fault? <;> rfl

end Session
end Argot
