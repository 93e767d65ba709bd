import Argot.Vocabulary.Table
/-!
# Standard — the vocabulary that is there from the start

One entry list for each category, those of the frameworks apart: a table holds the framework words of one framework at
most.  No form occurs twice among the lists that can be active together, so every form goes back to one host word.  The
forms of operators stand in generated comments only.
-/
namespace Argot
namespace Standard

def keywords : List (String × String) := [
  ("const", "firmConst"), ("let", "tightVar"), ("var", "looseVar"), ("interface", "bulkInterface"),
  ("type", "tightType"), ("enum", "menuOfMen"), ("class", "hotClass"), ("extends", "extendDaddy"),
  ("implements", "signsContract"), ("abstract", "deepFantasy"), ("function", "initWorkout"), ("async", "asyncPump"),
  ("await", "awaitGrip"), ("return", "sweatReturn"), ("yield", "yieldMoan"), ("if", "dominateIf"),
  ("else", "flexElse"), ("switch", "switchPosition"), ("case", "caseStance"), ("default", "defaultMoan"),
  ("for", "muscleLoop"), ("while", "deepLoop"), ("do", "doReps"), ("break", "breakRelease"),
  ("continue", "keepPumping"), ("new", "freshMeat"), ("delete", "dumpLoad"), ("typeof", "whatKindOfGuy"),
  ("instanceof", "isOneOfUs"), ("in", "insideGym"), ("of", "outOfGym"), ("this", "thisBoy"), ("super", "superDaddy"),
  ("static", "staticFlex"), ("private", "privateSession"), ("protected", "guardedDungeon"), ("public", "publicShow"),
  ("readonly", "lookNoTouch"), ("try", "tryDominance"), ("catch", "catchRelease"), ("finally", "finallyRest"),
  ("throw", "throwDown"), ("import", "importLube"), ("export", "exportLoad"), ("from", "fromDungeon"),
  ("as", "strongCast"), ("true", "trueMan"), ("false", "falseAlarm"), ("null", "emptyLocker"),
  ("undefined", "lostInDungeon")]

def operators : List (String × String) := [
  ("=", "becomes"), ("==", "matches"), ("===", "deeplyMatches"), ("!=", "differs"), ("!==", "deeplyDiffers"),
  ("+", "plus"), ("-", "minus"), ("*", "multiply"), ("/", "divide"), ("%", "remainder"), ("**", "power"),
  ("++", "increment"), ("--", "decrement"), ("+=", "addTo"), ("-=", "subtractFrom"), ("*=", "multiplyBy"),
  ("/=", "divideBy"), ("%=", "remainderBy"), ("&&", "and"), ("||", "or"), ("!", "not"), ("&", "bitwiseAnd"),
  ("|", "bitwiseOr"), ("^", "bitwiseXor"), ("~", "bitwiseNot"), ("<<", "leftShift"), (">>", "rightShift"),
  (">>>", "unsignedRightShift"), ("<", "smaller"), (">", "bigger"), ("<=", "smallerOrEqual"), (">=", "biggerOrEqual"),
  ("?", "maybe"), (":", "otherwise"), ("\x7b", "openGym"), ("\x7d", "closeGym"), ("(", "grab"), (")", "letGo"),
  ("[", "enter"), ("]", "exit"), (";", "rest"), (",", "next"), (".", "into"), ("...", "spread"), ("=>", "leadsTo")]

def types : List (String × String) := [
  ("string", "stringRope"), ("number", "muscleCount"), ("boolean", "yesOrNoBoy"), ("object", "objectOfDesire"),
  ("array", "arrayOfMen"), ("void", "voidDungeon"), ("any", "anyoneGoes"), ("unknown", "unknownStranger"),
  ("never", "neverFinish")]

def builtinMethods : List (String × String) := [
  ("push", "pushDeep"), ("pop", "popOut"), ("shift", "shiftPosition"), ("unshift", "slideInFront"),
  ("splice", "spliceBodies"), ("slice", "sliceMeat"), ("concat", "concatBuddies"), ("map", "mapMuscles"),
  ("filter", "filterWeaklings"), ("reduce", "reduceLoad"), ("forEach", "forEachBoy"), ("find", "findPartner"),
  ("findIndex", "findPartnerIndex"), ("includes", "includesBoy"), ("indexOf", "indexOfBoy"), ("join", "joinTheClub"),
  ("split", "splitReps"), ("reverse", "reverseCard"), ("sort", "sortByMuscle"), ("then", "thenClimax"),
  ("catch", "catchLoad"), ("finally", "finallySpent"), ("resolve", "resolveTension"), ("reject", "rejectBoy"),
  ("addEventListener", "listenForMoan"), ("removeEventListener", "stopListeningMoan"),
  ("querySelector", "seekOneBoy"), ("querySelectorAll", "seekAllBoys"), ("getElementById", "findBoyById"),
  ("createElement", "buildBody"), ("appendChild", "attachBoy"), ("removeChild", "detachBoy"),
  ("setAttribute", "setBodyTrait"), ("getAttribute", "getBodyTrait"), ("removeAttribute", "dropBodyTrait")]

def builtinObjects : List (String × String) := [
  ("Promise", "PromiseGrip"), ("NaN", "confusedBoy"), ("Infinity", "endlessStamina")]

def reactIdentifiers : List (String × String) := [
  ("React", "GachiReact"), ("Component", "GachiComponent"), ("useState", "useGachiState"), ("useEffect", "gachiHook"),
  ("useContext", "useDungeonContext"), ("useReducer", "useCompressorPump"), ("useMemo", "rememberThatNight"),
  ("useCallback", "rememberTheMove"), ("useRef", "useHardRef"), ("props", "giftsFromDaddy"),
  ("state", "gymCondition"), ("render", "performShowOff"), ("componentDidMount", "afterMountFlex"),
  ("componentWillUnmount", "beforeUnmountFlex")]

/-- Words of the Angular framework; decorators begin with an at sign. -/
def angularIdentifiers : List (String × String) := [
  ("@Component", "@CoreDecor"), ("@Injectable", "@InjectLust"), ("@Input", "@GachiProp"), ("@Output", "@GachiOutput"),
  ("@ViewChild", "@SeeChildBoy"), ("@HostListener", "@ListenHostBoy"), ("ngOnInit", "gachiWarmUp"),
  ("ngOnDestroy", "gachiCoolDown"), ("ngOnChanges", "gachiSwitchUp"), ("ngAfterViewInit", "gachiAfterShow")]

def vueIdentifiers : List (String × String) := [
  ("Vue", "GachiView"), ("data", "gachiData"), ("computed", "computedGains"), ("methods", "gachiMethods"),
  ("watch", "watchTheShow"), ("mounted", "mountedUp"), ("destroyed", "destroyedAfter"), ("created", "createdInGym")]

def phrases : List (String × String) := [
  ("algorithm", "routineOfReps"), ("variable", "holderBoy"), ("parameter", "intakeBoy"), ("argument", "offeringBoy"),
  ("callback", "callMeBackBoy"), ("promise", "commitmentBoy"), ("iterator", "walkerBoy"),
  ("generator", "producerBoy"), ("closure", "captureBoy"), ("scope", "reachOfGym"), ("hoisting", "liftingWeights"),
  ("prototype", "thickProto"), ("inheritance", "daddyLegacy"), ("polymorphism", "shapeShifterBoy"),
  ("encapsulation", "wrappedTight"), ("abstraction", "simplifiedBoy"), ("error", "deepPain")]

def billyQuotes : List String := [
  "Boss of this gym", "Welcome to the club, buddy", "Take it boy", "Come on college boy", "That's amazing"]

def vanQuotes : List String := [
  "Deep dark fantasies", "Boy next door", "Fisting is 300 bucks", "Sorry for what?", "Dungeon master approves"]

/-- The sayings that decorative comments are drawn from; they are no part of any table. -/
def quotes : List String :=
  billyQuotes ++ vanQuotes

/-- The words of a framework; a framework without a list has none. -/
def frameworkIdentifiers (framework : String) : List (String × String) :=
  if framework = "react" then reactIdentifiers
  else if framework = "angular" then angularIdentifiers
  else if framework = "vue" then vueIdentifiers
  else []

def lists (framework : String) : List (Category × List (String × String)) :=
  [(.keyword, keywords), (.operator, operators), (.type, types), (.builtinMethod, builtinMethods),
    (.builtinObject, builtinObjects), (.frameworkIdentifier, frameworkIdentifiers framework), (.phrase, phrases)]

def table (framework : String := "none") : Table :=
  Table.ofLists ((lists framework).map fun l => (l.1, l.2.map fun p => (p.1, p.2))) framework

end Standard
end Argot
