import Argot.CommandLine.Command
import Argot.Proofs.Source.Layout
import Argot.Proofs.Source.OneLine
/-!
# Frameworks — which framework a command line asks for

The framework of the options is that of the switch, else that of the environment, else none
(`ofSpelling?_of_options`), and the session of a command works on its standard table (`session_of_options`).  The command
about vocabularies looks at the switch alone (`dictionaryTable_of_options`), so it works on another table just if the
environment names a framework and the command line does not (`frameworks_alike_iff`).
-/
namespace Argot

open Node (bind_eq_ok_iff)

theorem mapError_eq_ok_iff {ε ε' α : Type} {f : ε → ε'} {x : Except ε α} {a : α} :
    x.mapError f = .ok a ↔ x = .ok a := by
  cases x <;> simp [Except.mapError]

namespace Framework

variable {text : String} {f g : Framework}

theorem ofScalar_text_eq_ok_iff : ofScalar (.text text) = .ok f ↔ ofSpelling? text = some f := by
  unfold ofScalar
  cases hfound : ofSpelling? text <;> simp [hfound]

theorem name_inj (h : f.name = g.name) : f = g := by
  revert h
  cases f <;> cases g <;> decide

theorem table_name_inj : Standard.table f.name = Standard.table g.name ↔ f = g := by
  refine ⟨fun h => name_inj ?_, fun h => h ▸ rfl⟩
  exact Spelling.text.inj (congrArg Table.framework h)

end Framework

/-- How a command line that was read wants sources converted. -/
def ConversionArguments.OfSwitches (how : ConversionArguments) : Prop :=
  ∃ r, how = Arguments.conversionArguments r

variable {how : ConversionArguments}

/-- The switch for the framework is not given, is given without a name, or gives a name. -/
theorem ConversionArguments.OfSwitches.framework_cases (h : how.OfSwitches) :
    (how.framework = none ∧ how.overrides.framework = .absent) ∨
    (how.framework = none ∧ how.overrides.framework = .emptyList) ∨
    ∃ text, how.framework = some text ∧ how.overrides.framework = .text text := by
  obtain ⟨r, rfl⟩ := h
  simp only [Arguments.conversionArguments, Grammar.Reading.value?]
  rcases r.last? "framework" with - | - | ⟨text, rest⟩
  · exact .inl ⟨rfl, rfl⟩
  · exact .inr (.inl ⟨rfl, rfl⟩)
  · exact .inr (.inr ⟨text, rfl, rfl⟩)

namespace Arguments

/-- How sources are to be converted, where any are. -/
def how? : Arguments → Option ConversionArguments
  | .convert _ _ how => some how
  | .validate _ how => some how
  | .detect _ => none
  | .watch _ _ how _ => some how
  | .dictionary _ how _ => some how

variable {arguments : Arguments} {command : String} {words : List String} {r : Grammar.Reading}

theorem ofSwitches_of_readCommand (h : readCommand command words = .ok (r, arguments))
    (hhow : arguments.how? = some how) : how.OfSwitches := by
  unfold readCommand at h
  split_ifs at h
  all_goals
    obtain ⟨r', -, hr⟩ := bind_eq_ok_iff.1 h
    obtain ⟨rfl, rfl⟩ := Prod.mk.inj (Except.ok.inj hr)
    cases hhow <;> exact ⟨_, rfl⟩

theorem ofSwitches_of_readFrom (hhow : arguments.how? = some how) : ∀ {fuel : Nat} {classified : List Grammar.Word}
    {texts : List String} {r : Grammar.Reading}, readFrom fuel classified texts r = .ok arguments → how.OfSwitches
  | fuel + 1, .switch spelled :: classified, _ :: texts, r, h => by
    obtain ⟨⟨r', rest⟩, -, h⟩ := bind_eq_ok_iff.1 h
    exact ofSwitches_of_readFrom hhow h
  | fuel + 1, .unknown _ :: classified, _ :: texts, r, h => by
    rw [readFrom] at h
    exact ofSwitches_of_readFrom hhow h
  | fuel + 1, .plain command :: classified, _ :: texts, r, h => by
    obtain ⟨⟨r', arguments'⟩, hcommand, h⟩ := bind_eq_ok_iff.1 h
    dsimp only at h
    split_ifs at h
    obtain rfl := Except.ok.inj h
    exact ofSwitches_of_readCommand hcommand hhow

/-- **What a command line says about conversion is what its switches say**, whatever stands before the command. -/
theorem ofSwitches_of_read (h : read words = .ok arguments) (hhow : arguments.how? = some how) : how.OfSwitches := by
  obtain ⟨classified, -, h⟩ := bind_eq_ok_iff.1 h
  exact ofSwitches_of_readFrom hhow h

end Arguments

namespace Command

variable {environment : Environment} {o : Options}

/-! ## The framework of the options -/

/-- The name that the environment has for the framework. -/
def environmentName (environment : Environment) : String :=
  (environment.get? "GACHI_FRAMEWORK").getD "none"

theorem framework_of_environment (h : environment.options = .ok o) :
    Framework.ofSpelling? (environmentName environment) = some o.framework := by
  obtain ⟨framework, hframework, h⟩ := bind_eq_ok_iff.1 h
  have ho : o.framework = framework := by
    dsimp only at h
    split at h <;> obtain ⟨seed, -, h⟩ := bind_eq_ok_iff.1 h <;> split at h <;>
      obtain ⟨dialect, -, h⟩ := bind_eq_ok_iff.1 h <;> exact congrArg Options.framework (Except.ok.inj h).symm
  rw [ho]
  exact Framework.ofScalar_text_eq_ok_iff.1 (mapError_eq_ok_iff.1 hframework)

theorem framework_of_merge {v : Overrides} {o' : Options} (h : o.merge v = .ok o') :
    (v.framework = .absent → o'.framework = o.framework) ∧
      (v.framework ≠ .absent → Framework.ofScalar v.framework = .ok o'.framework) := by
  unfold Options.merge at h
  dsimp only at h
  split at h
  · rename_i habsent
    obtain ⟨framework, hframework, h⟩ := bind_eq_ok_iff.1 h
    obtain ⟨dialect, -, h⟩ := bind_eq_ok_iff.1 h
    obtain rfl := Except.ok.inj h
    exact ⟨fun _ => (Except.ok.inj hframework).symm, fun hgiven => absurd habsent hgiven⟩
  · rename_i hgiven
    obtain ⟨framework, hframework, h⟩ := bind_eq_ok_iff.1 h
    obtain ⟨dialect, -, h⟩ := bind_eq_ok_iff.1 h
    obtain rfl := Except.ok.inj h
    exact ⟨fun habsent => absurd habsent hgiven, fun _ => hframework⟩

theorem options_eq_ok_iff : options environment how = .ok o ↔
    ∃ defaults, environment.options = .ok defaults ∧ defaults.merge how.overrides = .ok o := by
  rw [options, bind_eq_ok_iff]
  simp only [mapError_eq_ok_iff]

/-- **The framework is that of the switch, else that of the environment, else none.** -/
theorem ofSpelling?_of_options (hhow : how.OfSwitches) (h : options environment how = .ok o) :
    Framework.ofSpelling? (how.framework.getD (environmentName environment)) = some o.framework := by
  obtain ⟨defaults, hdefaults, hmerge⟩ := options_eq_ok_iff.1 h
  obtain ⟨hkept, hchanged⟩ := framework_of_merge hmerge
  rcases hhow.framework_cases with ⟨hname, hswitch⟩ | ⟨-, hswitch⟩ | ⟨text, hname, hswitch⟩
  · rw [hname, Option.getD_none, hkept hswitch]
    exact framework_of_environment hdefaults
  · -- A switch without a name is no framework, so there are no options.
    have hnone := hchanged (by simp [hswitch])
    rw [hswitch] at hnone
    cases hnone
  · have htext := hchanged (by simp [hswitch])
    rw [hswitch] at htext
    rw [hname, Option.getD_some]
    exact Framework.ofScalar_text_eq_ok_iff.1 htext

/-! ## The tables that commands work on -/

/-- **The session of a command works on the standard table of its framework**, unless a vocabulary is read from a file. -/
theorem session_of_options (hno : filled how.dictionary = none) (h : options environment how = .ok o)
    (tree : FileTree) :
    ∃ r, session environment tree how = .ok r ∧ r.options = o ∧
      r.table (r.keyOf o) = Standard.table o.framework.name ∧
      (r.tableFor.map Prod.fst) = .ok (Standard.table o.framework.name) := by
  refine ⟨{ options := o }, ?_, rfl, rfl, rfl⟩
  rw [session, h, hno]
  rfl

/-- The framework that the command about vocabularies takes: that of the switch, or none. -/
def dictionaryFramework (how : ConversionArguments) (o : Options) : Framework :=
  if how.framework.isSome then o.framework else .plain

/-- **The command about vocabularies looks at the switch alone.** -/
theorem dictionaryTable_of_options (hhow : how.OfSwitches) (hno : filled how.dictionary = none)
    (h : options environment how = .ok o) (tree : FileTree) :
    dictionaryTable tree how = .ok (Standard.table (dictionaryFramework how o).name) := by
  have hchosen := ofSpelling?_of_options hhow h
  have hframework : Framework.ofScalar (.text ((filled how.framework).getD "none")) =
      .ok (dictionaryFramework how o) := by
    unfold dictionaryFramework
    rw [Framework.ofScalar_text_eq_ok_iff]
    cases hname : how.framework with
    | none =>
      have hplain : Framework.ofSpelling? "none" = some .plain := by decide +kernel
      exact hplain
    | some text =>
      rw [hname, Option.getD_some] at hchosen
      by_cases hempty : text = ""
      · subst hempty
        have hplain : Framework.ofSpelling? "" = Framework.ofSpelling? "none" := by decide +kernel
        rw [hplain] at hchosen
        exact hchosen
      · have hfilled : filled (some text) = some text := by simp [filled, hempty]
        rw [hfilled]
        exact hchosen
  rw [dictionaryTable, hno]
  simp only [hframework]
  rfl

variable {m : Type → Type} [Monad m] [LawfulMonad m]

theorem result_dictionary (s : Surroundings m) {words : List String} {action : DictionaryAction}
    {output : Option String} {t : Table} (hread : Arguments.read words = .ok (.dictionary action how output))
    (ht : dictionaryTable s.tree how = .ok t) :
    result s words = pure (reported s.tree (examine s.tree t action output)) := by
  have hdictionary : dictionary s.tree action how output = examine s.tree t action output := by
    rw [dictionary, ht]
    rfl
  simp only [result, hread, perform, pure_bind, hdictionary]

/-- **Commands take the framework from the switch, else from the environment, but the one about vocabularies does not
ask the environment.**  On every command line that is understood, the framework of the options is that of the switch,
else that of the environment, else none, and without a file the session works on its standard table.  The command about
vocabularies comes to what its action makes of the standard table of that framework if the switch is given, and of the
plain one if it is not; so it works on the table of the options just if the switch is given or the environment names no
framework. -/
theorem frameworks_alike_iff (s : Surroundings m) {words : List String} {arguments : Arguments}
    (hread : Arguments.read words = .ok arguments) (hhow : arguments.how? = some how)
    (hno : filled how.dictionary = none) (hoptions : options s.environment how = .ok o) :
    Framework.ofSpelling? (how.framework.getD ((s.environment.get? "GACHI_FRAMEWORK").getD "none")) =
      some o.framework ∧
    (∃ r, session s.environment s.tree how = .ok r ∧ r.options = o ∧
      r.table (r.keyOf o) = Standard.table o.framework.name ∧
      (r.tableFor.map Prod.fst) = .ok (Standard.table o.framework.name)) ∧
    ∀ action output, arguments = .dictionary action how output →
      result s words = pure (reported s.tree
        (examine s.tree (Standard.table (dictionaryFramework how o).name) action output)) ∧
      (dictionaryTable s.tree how = .ok (Standard.table o.framework.name) ↔
        how.framework.isSome = true ∨ o.framework = .plain) := by
  have hswitches := Arguments.ofSwitches_of_read hread hhow
  have htable := dictionaryTable_of_options hswitches hno hoptions s.tree
  refine ⟨ofSpelling?_of_options hswitches hoptions, session_of_options hno hoptions s.tree, ?_⟩
  rintro action output rfl
  refine ⟨result_dictionary s hread htable, ?_⟩
  rw [htable, Except.ok.injEq, Framework.table_name_inj, dictionaryFramework]
  split
  · next hgiven => simp [hgiven]
  · next hgiven => simp [hgiven, eq_comm]

/-- Surroundings with nothing in them but an environment. -/
def bareSurroundings (environment : Environment) : Surroundings Id where
  parse _ _ := Tree.token "program" true 0 0
  clock := pure (0 : Nat)
  say _ := pure ()
  keepWatch _ := pure (.ok false)
  environment
  tree := .bare []

/-- The switch is cut short and its name is loosely spelled. -/
theorem frameworks_alike_cut_switch :
    let environment : Environment := [("GACHI_FRAMEWORK", "vue")]
    let words := ["dictionary", "check", "--frame=React-like"]
    let how : ConversionArguments :=
      { overrides := { framework := .text "React-like" }, framework := some "React-like" }
    Arguments.read words = .ok (.dictionary .check how none) ∧ filled how.dictionary = none ∧
      options environment how = .ok { framework := .react } ∧
      dictionaryTable (bareSurroundings environment).tree how = .ok (Standard.table "react") := by
  intro environment words how
  have hread : Arguments.read words = .ok (.dictionary .check how none) := by decide +kernel
  have hoptions : options environment how = .ok { framework := .react } :=
    options_eq_ok_iff.2 ⟨{ framework := .vue }, by decide +kernel, by decide +kernel⟩
  obtain ⟨-, -, hdictionary⟩ := frameworks_alike_iff (bareSurroundings environment) hread rfl rfl hoptions
  exact ⟨hread, rfl, hoptions, (hdictionary _ _ rfl).2.2 (.inl rfl)⟩

/-- **The environment is not asked**: it names a framework and the options have it, but the numbers are those of the
vocabulary without one. -/
theorem environment_not_asked :
    let environment : Environment := [("GACHI_FRAMEWORK", "react")]
    let words := ["dictionary", "stats"]
    let how : ConversionArguments := {}
    let numbers (t : Table) : String := (Json.write (Record.statsValue t.stats) (some 2)).shown
    Arguments.read words = .ok (.dictionary .stats how none) ∧ filled how.dictionary = none ∧
      options environment how = .ok { framework := .react } ∧
      result (bareSurroundings environment) words = .ok ⟨0, [numbers (Standard.table "none")], .bare []⟩ ∧
      (Standard.table "none").size = 159 ∧ (Standard.table "react").size = 173 := by
  intro environment words how numbers
  have hread : Arguments.read words = .ok (.dictionary .stats how none) := by decide +kernel
  have hoptions : options environment how = .ok { framework := .react } :=
    options_eq_ok_iff.2 ⟨{ framework := .react }, by decide +kernel, by decide +kernel⟩
  have htable := dictionaryTable_of_options (Arguments.ofSwitches_of_read hread rfl) rfl hoptions (.bare [])
  refine ⟨hread, rfl, hoptions, ?_, by decide +kernel, by decide +kernel⟩
  exact result_dictionary (bareSurroundings environment) hread htable

end Command
end Argot
