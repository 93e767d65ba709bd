import Argot.Proofs.Files.Scheduling
/-!
# Supersession — runs that were overtaken never act

A diary holds a scheduler and what happened to it (`Diary`).  In a course of calls, timers fire late or not at all, each
at most once, and actions make calls themselves (`Course`).  Each call keeps the accounts (`Keeps`): a pending timer is
of the current generation of its path, and nothing since its start supersedes it; a timer that is current and has not
fired is pending; and no path ran, is pending and is due in flushes under way more often than it was scheduled.  So a
timer that fires acts exactly if nothing superseded it (`superseded_never_run`).
-/
namespace Argot
namespace Scheduler

variable {s s' : Scheduler} {p q : Path} {i g : Nat}

/-! ## Timers and generations -/

/-- The path and generation of each timer ever started. -/
def issued (s : Scheduler) : List (Path × Nat) :=
  s.timers.map fun timer => (timer.path, timer.generation)

theorem issued_bump (s : Scheduler) (p : Path) : (s.bump p).issued = s.issued := by
  unfold issued bump
  cases s.pending.get? p with
  | none => rfl
  | some index =>
    refine List.ext_getElem? fun i => ?_
    simp only [cancelTimer, List.getElem?_map, List.getElem?_modify]
    cases s.timers[i]? with
    | none => rfl
    | some timer => by_cases hi : index = i <;> simp [hi]

theorem length_issued (s : Scheduler) : s.issued.length = s.timers.length :=
  List.length_map _

theorem get?_generations_schedule (s : Scheduler) (p q : Path) : (s.schedule p).generations.get? q =
    if q = p then some (s.generation p + 1) else s.generations.get? q :=
  s.get?_generations_bump p q

theorem get?_pending_schedule (s : Scheduler) (p q : Path) : (s.schedule p).pending.get? q =
    if q = p then some s.timers.length else s.pending.get? q := by
  have hlength : (s.bump p).timers.length = s.timers.length := by
    rw [← length_issued, issued_bump, length_issued]
  refine (OrderedMap.get?_insert _ p q _).trans ?_
  rw [hlength, show (s.bump p).pending.get? q = _ from s.pending.get?_erase p q]
  split <;> rfl

theorem issued_schedule (s : Scheduler) (p : Path) : (s.schedule p).issued = s.issued ++ [(p, s.generation p + 1)] := by
  have hgeneration : (s.bump p).generation p = s.generation p + 1 := by
    unfold generation
    rw [get?_generations_bump, if_pos rfl]
    rfl
  rw [← issued_bump s p, ← hgeneration]
  exact List.map_append

/-- Scheduling a path starts one timer, the last one. -/
theorem issued_schedule_iff : (s.schedule p).issued[i]? = some (q, g) ↔
    s.issued[i]? = some (q, g) ∨ i = s.timers.length ∧ q = p ∧ g = s.generation p + 1 := by
  rw [issued_schedule, ← length_issued]
  rcases Nat.lt_trichotomy i s.issued.length with hi | rfl | hi
  · rw [List.getElem?_append_left hi]
    exact (or_iff_left fun h => Nat.ne_of_lt hi h.1).symm
  · simp [eq_comm]
  · have hnone : s.issued[i]? = none := List.getElem?_eq_none (Nat.le_of_lt hi)
    rw [List.getElem?_eq_none (by rw [List.length_append]; exact hi), hnone]
    exact iff_of_false nofun fun h => h.elim nofun fun h => Nat.ne_of_gt hi h.1

/-- What a change of mind about some paths leaves. -/
structure Overtaken (changed : Path → Prop) (s s' : Scheduler) : Prop where
  issued : s'.issued = s.issued
  dropped : ∀ p, changed p → s'.pending.get? p = none
  raised : ∀ p, changed p → s.generation p < s'.generation p
  pending : ∀ p, ¬changed p → s'.pending.get? p = s.pending.get? p
  generations : ∀ p, ¬changed p → s'.generations.get? p = s.generations.get? p

theorem Overtaken.refl (s : Scheduler) : Overtaken (fun _ => False) s s :=
  ⟨rfl, nofun, nofun, fun _ _ => rfl, fun _ _ => rfl⟩

theorem Overtaken.generation_le {changed : Path → Prop} (h : Overtaken changed s s') (p : Path) :
    s.generation p ≤ s'.generation p := by
  by_cases hp : changed p
  · exact Nat.le_of_lt (h.raised p hp)
  · exact Nat.le_of_eq (congrArg (Option.getD · 0) (h.generations p hp).symm)

theorem Overtaken.pending_of_some {changed : Path → Prop} (h : Overtaken changed s s')
    (hp : s'.pending.get? p = some i) : ¬changed p ∧ s.pending.get? p = some i := by
  have hkept : ¬changed p := fun hc => by simp [h.dropped p hc] at hp
  exact ⟨hkept, h.pending p hkept ▸ hp⟩

theorem overtaken_bump (s : Scheduler) (p : Path) : Overtaken (· = p) s (s.bump p) where
  issued := s.issued_bump p
  dropped := fun q hq => (s.pending.get?_erase p q).trans (if_pos hq)
  raised := fun q hq => by
    unfold generation
    rw [get?_generations_bump, if_pos hq, hq]
    exact Nat.lt_succ_self _
  pending := fun q hq => (s.pending.get?_erase p q).trans (if_neg hq)
  generations := fun q hq => (s.get?_generations_bump p q).trans (if_neg hq)

theorem overtaken_foldl_bump : ∀ (l : List Path) (s : Scheduler), Overtaken (· ∈ l) s (l.foldl bump s)
  | [], s => ⟨rfl, nofun, nofun, fun _ _ => rfl, fun _ _ => rfl⟩
  | p :: l, s => by
    have hfirst := overtaken_bump s p
    have hrest := overtaken_foldl_bump l (s.bump p)
    refine ⟨hrest.issued.trans hfirst.issued, fun q hq => ?_, fun q hq => ?_, fun q hq => ?_, fun q hq => ?_⟩
    · by_cases hl : q ∈ l
      · exact hrest.dropped q hl
      · exact (hrest.pending q hl).trans (hfirst.dropped q ((List.mem_cons.1 hq).resolve_right hl))
    · by_cases hqp : q = p
      · exact Nat.lt_of_lt_of_le (hfirst.raised q hqp) (hrest.generation_le q)
      · exact Nat.lt_of_le_of_lt (hfirst.generation_le q) (hrest.raised q ((List.mem_cons.1 hq).resolve_left hqp))
    · obtain ⟨hqp, hl⟩ := not_or.1 (mt List.mem_cons.2 hq)
      exact (hrest.pending q hl).trans (hfirst.pending q hqp)
    · obtain ⟨hqp, hl⟩ := not_or.1 (mt List.mem_cons.2 hq)
      exact (hrest.generations q hl).trans (hfirst.generations q hqp)

theorem overtaken_cancelAll (s : Scheduler) : Overtaken (· ∈ s.pending.keys) s s.cancelAll :=
  overtaken_foldl_bump s.pending.keys s

/-! ## What happens to a scheduler -/

/-- What happened to a scheduler: calls, timers that fired, and actions that began. -/
inductive Event where
  | scheduled (p : Path)
  | deleted (p : Path)
  | flushed
  | cancelled
  | fired (timer : Nat)
  /-- The action began for a path, for a timer that fired or in a flush. -/
  | ran (p : Path) (timer : Option Nat)
  deriving DecidableEq, Repr

namespace Event

def starts : Event → Bool
  | .scheduled _ => true
  | _ => false

def schedules (p : Path) : Event → Bool
  | .scheduled q => q = p
  | _ => false

def runs (p : Path) : Event → Bool
  | .ran q _ => q = p
  | _ => false

/-- Whether a timer of a path that was started before is no longer to act. -/
def supersedes (p : Path) : Event → Bool
  | .scheduled q | .deleted q => q = p
  | .flushed | .cancelled => true
  | .fired _ | .ran .. => false

end Event

/-- The `i`-th timer was started for a path, and nothing has superseded it.  The latest event is the first. -/
def Stands (p : Path) (i : Nat) (events : List Event) : Prop :=
  ∃ between before, events = between ++ .scheduled p :: before ∧ before.countP Event.starts = i ∧
    ∀ e ∈ between, e.supersedes p = false

theorem Stands.cons {events : List Event} {e : Event} (h : Stands p i events) (he : e.supersedes p = false) :
    Stands p i (e :: events) := by
  obtain ⟨between, before, rfl, hcount, hbetween⟩ := h
  exact ⟨e :: between, before, rfl, hcount, List.forall_mem_cons.2 ⟨he, hbetween⟩⟩

theorem Stands.of_cons {events : List Event} {e : Event} (h : Stands p i (e :: events)) (he : e.starts = false) :
    e.supersedes p = false ∧ Stands p i events := by
  obtain ⟨between, before, hevents, hcount, hbetween⟩ := h
  cases between with
  | nil =>
    obtain ⟨rfl, -⟩ := List.cons.inj hevents
    cases he
  | cons b between =>
    obtain ⟨rfl, rfl⟩ := List.cons.inj hevents
    obtain ⟨hfirst, hrest⟩ := List.forall_mem_cons.1 hbetween
    exact ⟨hfirst, between, before, rfl, hcount, hrest⟩

theorem stands_scheduled_iff {events : List Event} : Stands p i (.scheduled q :: events) ↔
    q = p ∧ events.countP Event.starts = i ∨ q ≠ p ∧ Stands p i events := by
  constructor
  · rintro ⟨between, before, hevents, hcount, hbetween⟩
    cases between with
    | nil =>
      obtain ⟨hq, rfl⟩ := List.cons.inj hevents
      exact .inl ⟨Event.scheduled.inj hq, hcount⟩
    | cons b between =>
      obtain ⟨rfl, rfl⟩ := List.cons.inj hevents
      obtain ⟨hfirst, hrest⟩ := List.forall_mem_cons.1 hbetween
      exact .inr ⟨of_decide_eq_false hfirst, between, before, rfl, hcount, hrest⟩
  · rintro (⟨rfl, hcount⟩ | ⟨hq, hstands⟩)
    · exact ⟨[], events, rfl, hcount, nofun⟩
    · exact hstands.cons (decide_eq_false hq)

/-- A scheduler, and what happened to it, the latest first. -/
structure Diary where
  scheduler : Scheduler := {}
  events : List Event := []

instance : MonadStateOf Scheduler (StateM Diary) where
  get := do return (← getThe Diary).scheduler
  set s := modifyThe Diary fun d => { d with scheduler := s }
  modifyGet f := modifyGetThe Diary fun d =>
    let (a, s) := f d.scheduler
    (a, { d with scheduler := s })

def note (e : Event) : StateM Diary Unit :=
  modifyThe Diary fun d => { d with events := e :: d.events }

variable {φ : Type}

/-- An action that notes when it begins. -/
def noting (action : Path → StateM Diary (Except φ Unit)) (timer : Option Nat) (p : Path) :
    StateM Diary (Except φ Unit) := do
  note (.ran p timer)
  action p

namespace Diary

def scheduled (d : Diary) (p : Path) : Diary :=
  ⟨d.scheduler.schedule p, .scheduled p :: d.events⟩

def cancelled (d : Diary) : Diary :=
  ⟨d.scheduler.cancelAll, .cancelled :: d.events⟩

def deleted {ε : Type} (d : Diary) (remove : Option (Path → StateM Diary (Removal ε))) (p : Path) : Diary :=
  ((do note (.deleted p); Scheduler.deleted remove p : StateM Diary (Except ε Bool)).run d).2

def flushed (d : Diary) (action : Path → StateM Diary (Except φ Unit)) : Diary :=
  ((do note .flushed; Scheduler.flush (noting action none) : StateM Diary (Except φ Nat)).run d).2

def fired (d : Diary) (action : Path → StateM Diary (Except φ Unit)) (i : Nat) (timer : Timer) : Diary :=
  ((do note (.fired i); Scheduler.fire (noting action (some i)) timer : StateM Diary (Except φ Unit)).run d).2

end Diary

/-- One diary leads to another by calls and by timers that fire, each at most once and however late.  Every call may have
an action of its own, and actions may make calls and may fail. -/
inductive Course : Diary → Diary → Prop where
  | refl (d : Diary) : Course d d
  | trans {d d' d'' : Diary} : Course d d' → Course d' d'' → Course d d''
  | scheduled (d : Diary) (p : Path) : Course d (d.scheduled p)
  | cancelled (d : Diary) : Course d d.cancelled
  | deleted {ε : Type} (d : Diary) (remove : Option (Path → StateM Diary (Removal ε))) (p : Path)
      (removes : ∀ f, remove = some f → ∀ q d, Course d ((f q).run d).2) : Course d (d.deleted remove p)
  | flushed {φ : Type} (d : Diary) (action : Path → StateM Diary (Except φ Unit)) (acts : ∀ q d, Course d ((action q).run d).2) :
      Course d (d.flushed action)
  | fired {φ : Type} (d : Diary) (action : Path → StateM Diary (Except φ Unit))
      (acts : ∀ q d, Course d ((action q).run d).2) (i : Nat) (timer : Timer) (started : d.scheduler.timers[i]? = some timer) (unfired : .fired i ∉ d.events) :
      Course d (d.fired action i timer)

/-! ## What every call keeps -/

/-- What ran last was a timer that stood when it fired, and no path ran more often than it was scheduled. -/
structure Honest (events : List Event) : Prop where
  stood : ∀ p i earlier, events = .ran p (some i) :: earlier → ∃ before, earlier = .fired i :: before ∧ Stands p i before
  paid : ∀ p, events.countP (Event.runs p) ≤ events.countP (Event.schedules p)

/-- What holds of a diary while runs are due in flushes under way. -/
structure Keeps (d : Diary) (due : List Path) : Prop where
  pending : ∀ p i, d.scheduler.pending.get? p = some i →
    ∃ g, d.scheduler.issued[i]? = some (p, g) ∧ d.scheduler.generations.get? p = some g
  /-- A later change of mind about a path leaves all its timers behind. -/
  bounded : ∀ (i : Nat) p g, d.scheduler.issued[i]? = some (p, g) → g ≤ d.scheduler.generation p
  waiting : ∀ (i : Nat) p g, d.scheduler.issued[i]? = some (p, g) → .fired i ∉ d.events →
    d.scheduler.generations.get? p = some g → d.scheduler.pending.get? p = some i
  numbered : d.scheduler.timers.length = d.events.countP Event.starts
  stands : ∀ p i, d.scheduler.pending.get? p = some i → Stands p i d.events
  standing : ∀ p i, Stands p i d.events → .fired i ∉ d.events → d.scheduler.pending.get? p = some i
  /-- Each schedule pays for one run, which is pending first, and due from when a flush takes it over. -/
  credit : ∀ p, d.events.countP (Event.runs p) + d.scheduler.pending.keys.count p + due.count p ≤
    d.events.countP (Event.schedules p)
  past : ∀ earlier, earlier <:+ d.events → Honest earlier
  acted : ∀ p i earlier, .fired i :: earlier <:+ d.events → Stands p i earlier →
    .ran p (some i) :: .fired i :: earlier <:+ d.events

variable {d d' : Diary} {due due' : List Path} {e : Event} {events : List Event}

theorem honest_cons {pending due : Path → Nat} (hpast : ∀ earlier, earlier <:+ events → Honest earlier)
    (hstood : ∀ p i, e = .ran p (some i) → ∃ before, events = .fired i :: before ∧ Stands p i before)
    (hcredit : ∀ p, (e :: events).countP (Event.runs p) + pending p + due p ≤
      (e :: events).countP (Event.schedules p)) :
    ∀ earlier, earlier <:+ e :: events → Honest earlier := by
  intro earlier hearlier
  rcases List.suffix_cons_iff.1 hearlier with rfl | hearlier
  · have hpaid : ∀ p, (e :: events).countP (Event.runs p) ≤ (e :: events).countP (Event.schedules p) := fun p => by
      have hp := hcredit p
      omega
    refine ⟨fun p i rest heq => ?_, hpaid⟩
    obtain ⟨he, rfl⟩ := List.cons.inj heq
    exact hstood p i he
  · exact hpast earlier hearlier

/-- An event after which every timer that fired has been answered as before. -/
theorem acted_cons (hacted : ∀ p i earlier, .fired i :: earlier <:+ events → Stands p i earlier →
      .ran p (some i) :: .fired i :: earlier <:+ events) (hfired : ∀ p i, e = .fired i → ¬Stands p i events) :
    ∀ p i earlier, .fired i :: earlier <:+ e :: events → Stands p i earlier →
      .ran p (some i) :: .fired i :: earlier <:+ e :: events := by
  intro p i earlier hearlier hstands
  rcases List.suffix_cons_iff.1 hearlier with heq | hearlier
  · obtain ⟨he, rfl⟩ := List.cons.inj heq
    exact (hfired p i he.symm hstands).elim
  · exact (hacted p i earlier hearlier hstands).trans (List.suffix_cons e events)

/-- What only overtakes runs keeps the accounts. -/
theorem Keeps.overtaken {changed : Path → Prop} (h : Keeps d due) (ho : Overtaken changed d.scheduler s')
    (hstarts : e.starts = false) (hruns : ∀ p, e.runs p = false)
    (hsupersedes : ∀ p ∈ d.scheduler.pending.keys, e.supersedes p = true ↔ changed p)
    (hfired : ∀ p i, e = .fired i → ¬Stands p i d.events)
    (hcredit : ∀ p, s'.pending.keys.count p + due'.count p ≤ d.scheduler.pending.keys.count p + due.count p) :
    Keeps ⟨s', e :: d.events⟩ due' := by
  have hcredit' : ∀ p, (e :: d.events).countP (Event.runs p) + s'.pending.keys.count p + due'.count p ≤
      (e :: d.events).countP (Event.schedules p) := by
    intro p
    have hold := h.credit p
    have hnew := hcredit p
    rw [List.countP_cons_of_neg (by simp [hruns]), List.countP_cons]
    omega
  have hmem : ∀ p i, d.scheduler.pending.get? p = some i → p ∈ d.scheduler.pending.keys := fun p i hp =>
    (OrderedMap.mem_keys_iff _ p).2 ⟨i, hp⟩
  have hunfired' : ∀ {i}, .fired i ∉ e :: d.events → .fired i ∉ d.events := fun hf hmem =>
    hf (List.mem_cons_of_mem _ hmem)
  exact {
    pending := fun p i hp => by
      obtain ⟨hkept, hold⟩ := ho.pending_of_some hp
      obtain ⟨g, hissued, hg⟩ := h.pending p i hold
      exact ⟨g, ho.issued ▸ hissued, (ho.generations p hkept).trans hg⟩
    bounded := fun i p g hg => by
      rw [ho.issued] at hg
      exact Nat.le_trans (h.bounded i p g hg) (ho.generation_le p)
    waiting := fun i p g hg hunfired hcurrent => by
      dsimp only at hg hcurrent
      rw [ho.issued] at hg
      by_cases hc : changed p
      · have hraised := ho.raised p hc
        have hbounded := h.bounded i p g hg
        have hgeneration : s'.generation p = g := by simp [generation, hcurrent]
        omega
      · rw [ho.generations p hc] at hcurrent
        exact (ho.pending p hc).trans (h.waiting i p g hg (hunfired' hunfired) hcurrent)
    numbered := by
      have hlength : s'.timers.length = d.scheduler.timers.length := by
        rw [← length_issued, ← length_issued, ho.issued]
      rw [List.countP_cons_of_neg (by simp [hstarts]), ← h.numbered]
      exact hlength
    stands := fun p i hp => by
      obtain ⟨hkept, hold⟩ := ho.pending_of_some hp
      exact (h.stands p i hold).cons (by simpa using mt (hsupersedes p (hmem p i hold)).1 hkept)
    standing := fun p i hstands hunfired => by
      obtain ⟨hlives, hold⟩ := hstands.of_cons hstarts
      have hpending := h.standing p i hold (hunfired' hunfired)
      refine (ho.pending p fun hc => ?_).trans hpending
      rw [(hsupersedes p (hmem p i hpending)).2 hc] at hlives
      cases hlives
    credit := hcredit'
    past := honest_cons h.past (fun p i he => by
      subst he
      simpa [Event.runs] using hruns p) hcredit'
    acted := acted_cons h.acted hfired }

theorem keeps_start : Keeps {} [] where
  pending := nofun
  bounded := nofun
  waiting := nofun
  numbered := rfl
  stands := nofun
  standing := fun p i ⟨between, before, hevents, _⟩ => by simp at hevents
  credit := fun _ => Nat.le_refl _
  past := fun earlier hearlier => by
    obtain rfl := List.suffix_nil.1 hearlier
    exact ⟨nofun, fun _ => Nat.le_refl _⟩
  acted := fun p i earlier hearlier => by cases List.suffix_nil.1 hearlier

/-- The timer of a path that is scheduled is pending, and the only one of the path that is current. -/
theorem Keeps.scheduled (h : Keeps d due) (p : Path) : Keeps (d.scheduled p) due := by
  have hcredit : ∀ q, (Event.scheduled p :: d.events).countP (Event.runs q) +
      (d.scheduler.schedule p).pending.keys.count q + due.count q ≤
      (Event.scheduled p :: d.events).countP (Event.schedules q) := by
    intro q
    have hold := h.credit q
    have hothers : (d.scheduler.pending.keys.filter (· ≠ p)).count q ≤ d.scheduler.pending.keys.count q :=
      List.filter_sublist.count_le q
    rw [keys_schedule, List.count_append, List.countP_cons, List.countP_cons, List.count_singleton]
    simp only [Event.runs, Event.schedules, decide_eq_true_eq, Bool.false_eq_true, if_false, beq_iff_eq] at hold ⊢
    omega
  have hpending : ∀ q, (d.scheduled p).scheduler.pending.get? q =
      if q = p then some d.scheduler.timers.length else d.scheduler.pending.get? q := get?_pending_schedule _ p
  have hgenerations : ∀ q, (d.scheduled p).scheduler.generations.get? q =
      if q = p then some (d.scheduler.generation p + 1) else d.scheduler.generations.get? q :=
    get?_generations_schedule _ p
  exact {
    pending := fun q i hq => by
      rw [hpending] at hq
      rw [hgenerations]
      by_cases hqp : q = p
      · subst hqp
        rw [if_pos rfl] at hq
        exact ⟨_, issued_schedule_iff.2 (.inr ⟨(Option.some.inj hq).symm, rfl, rfl⟩), if_pos rfl⟩
      · rw [if_neg hqp] at hq
        obtain ⟨g, hg, hgeneration⟩ := h.pending q i hq
        exact ⟨g, issued_schedule_iff.2 (.inl hg), (if_neg hqp).trans hgeneration⟩
    bounded := fun i q g hg => by
      rcases issued_schedule_iff.1 hg with hg | ⟨-, rfl, rfl⟩
      · exact Nat.le_trans (h.bounded i q g hg) ((overtaken_bump d.scheduler p).generation_le q)
      · exact (overtaken_bump d.scheduler q).raised q rfl
    waiting := fun i q g hg hunfired hcurrent => by
      rw [hgenerations] at hcurrent
      rw [hpending]
      rcases issued_schedule_iff.1 hg with hold | ⟨rfl, rfl, -⟩
      · by_cases hqp : q = p
        · -- a timer that was started before is of an earlier generation
          subst hqp
          rw [if_pos rfl] at hcurrent
          have hbounded := h.bounded i q g hold
          have hnew := Option.some.inj hcurrent
          omega
        · rw [if_neg hqp] at hcurrent ⊢
          exact h.waiting i q g hold (fun hf => hunfired (List.mem_cons_of_mem _ hf)) hcurrent
      · exact if_pos rfl
    numbered := by
      have hlength : (d.scheduler.schedule p).timers.length = d.scheduler.timers.length + 1 := by
        rw [← length_issued, issued_schedule, List.length_append, length_issued]
        rfl
      exact hlength.trans ((congrArg (· + 1) h.numbered).trans (List.countP_cons_of_pos rfl).symm)
    stands := fun q i hq => by
      rw [hpending] at hq
      by_cases hqp : q = p
      · subst hqp
        rw [if_pos rfl] at hq
        exact stands_scheduled_iff.2 (.inl ⟨rfl, h.numbered.symm.trans (Option.some.inj hq)⟩)
      · rw [if_neg hqp] at hq
        exact stands_scheduled_iff.2 (.inr ⟨fun heq => hqp heq.symm, h.stands q i hq⟩)
    standing := fun q i hstands hunfired => by
      rw [hpending]
      rcases stands_scheduled_iff.1 hstands with ⟨rfl, rfl⟩ | ⟨hqp, hold⟩
      · rw [if_pos rfl, h.numbered]
      · rw [if_neg fun heq => hqp heq.symm]
        exact h.standing q i hold fun hf => hunfired (List.mem_cons_of_mem _ hf)
    credit := hcredit
    past := honest_cons h.past nofun hcredit
    acted := acted_cons h.acted nofun }

theorem Keeps.cancelled (h : Keeps d due) : Keeps d.cancelled due := by
  refine h.overtaken d.scheduler.overtaken_cancelAll rfl (fun _ => rfl) (fun p hp => iff_of_true rfl hp) nofun fun p => ?_
  rw [keys_cancelAll]
  simp

theorem Keeps.bumped (h : Keeps d due) (p : Path) : Keeps ⟨d.scheduler.bump p, .deleted p :: d.events⟩ due := by
  refine h.overtaken (overtaken_bump d.scheduler p) rfl (fun _ => rfl)
    (fun q _ => decide_eq_true_iff.trans eq_comm) nofun fun q => ?_
  rw [keys_bump]
  exact Nat.add_le_add_right (List.filter_sublist.count_le q) _

theorem Keeps.taken (h : Keeps d due) :
    Keeps ⟨d.scheduler.takePending.2, .flushed :: d.events⟩ (d.scheduler.pending.keys ++ due) := by
  refine h.overtaken d.scheduler.overtaken_cancelAll rfl (fun _ => rfl) (fun p hp => iff_of_true rfl hp) nofun fun p => ?_
  have hkeys : d.scheduler.takePending.2.pending.keys = [] := d.scheduler.keys_cancelAll
  rw [hkeys, List.count_append]
  simp

/-- A timer that stands when it fires is current. -/
theorem Keeps.current_of_stands (h : Keeps d due) {timer : Timer} (hstarted : d.scheduler.timers[i]? = some timer)
    (hunfired : .fired i ∉ d.events) (hstands : Stands p i d.events) :
    p = timer.path ∧ d.scheduler.isCurrent timer.path timer.generation = true := by
  obtain ⟨g, hissued, hgeneration⟩ := h.pending p i (h.standing p i hstands hunfired)
  rw [issued, List.getElem?_map, hstarted] at hissued
  obtain ⟨rfl, rfl⟩ := Prod.mk.inj (Option.some.inj hissued)
  exact ⟨rfl, by simp [isCurrent, hgeneration]⟩

/-- A timer that fires when it is no longer current changes nothing. -/
theorem Keeps.fired_late (h : Keeps d due) {timer : Timer} (hstarted : d.scheduler.timers[i]? = some timer)
    (hunfired : .fired i ∉ d.events) (hlate : ¬d.scheduler.isCurrent timer.path timer.generation = true) :
    Keeps ⟨d.scheduler, .fired i :: d.events⟩ due := by
  refine h.overtaken (Overtaken.refl _) rfl (fun _ => rfl) (fun _ _ => iff_of_false nofun id) (fun p j he hstands => ?_)
    fun _ => Nat.le_refl _
  cases he
  exact hlate (h.current_of_stands hstarted hunfired hstands).2

/-- A run that is no longer due. -/
theorem Keeps.skipped (h : Keeps d (p :: due)) : Keeps d due :=
  { h with
    credit := fun q => by
      have hcredit := h.credit q
      rw [List.count_cons] at hcredit
      omega }

/-- A run that is due in a flush begins. -/
theorem Keeps.ran (h : Keeps d (p :: due)) : Keeps ⟨d.scheduler, .ran p none :: d.events⟩ due := by
  have hcredit : ∀ q, (Event.ran p none :: d.events).countP (Event.runs q) + d.scheduler.pending.keys.count q +
      due.count q ≤ (Event.ran p none :: d.events).countP (Event.schedules q) := by
    intro q
    have hold := h.credit q
    rw [List.count_cons] at hold
    rw [List.countP_cons, List.countP_cons]
    simp only [Event.runs, Event.schedules, decide_eq_true_eq, Bool.false_eq_true, if_false, beq_iff_eq] at hold ⊢
    omega
  have hunfired : ∀ {i}, .fired i ∉ Event.ran p none :: d.events → .fired i ∉ d.events := fun hf hmem =>
    hf (List.mem_cons_of_mem _ hmem)
  exact {
    pending := h.pending
    bounded := h.bounded
    waiting := fun i q g hg hf => h.waiting i q g hg (hunfired hf)
    numbered := h.numbered
    stands := fun q i hq => (h.stands q i hq).cons rfl
    standing := fun q i hstands hf => h.standing q i (hstands.of_cons rfl).2 (hunfired hf)
    credit := hcredit
    past := honest_cons h.past nofun hcredit
    acted := acted_cons h.acted nofun }

/-- A timer that fires while it is current was pending, and its run begins. -/
theorem Keeps.fired_current (h : Keeps d due) {timer : Timer} (hstarted : d.scheduler.timers[i]? = some timer)
    (hunfired : .fired i ∉ d.events) (hcurrent : d.scheduler.isCurrent timer.path timer.generation = true) :
    Keeps ⟨{ d.scheduler with pending := d.scheduler.pending.erase timer.path },
      .ran timer.path (some i) :: .fired i :: d.events⟩ due := by
  have hissued : d.scheduler.issued[i]? = some (timer.path, timer.generation) := by
    rw [issued, List.getElem?_map, hstarted]
    rfl
  have hgeneration : d.scheduler.generations.get? timer.path = some timer.generation := by
    simpa [isCurrent] using hcurrent
  have hpending := h.waiting i _ _ hissued hunfired hgeneration
  have herased : ∀ q, (d.scheduler.pending.erase timer.path).get? q =
      if q = timer.path then none else d.scheduler.pending.get? q := d.scheduler.pending.get?_erase timer.path
  have hother : ∀ q j, (d.scheduler.pending.erase timer.path).get? q = some j → d.scheduler.pending.get? q = some j := by
    intro q j hq
    rw [herased] at hq
    split at hq
    · cases hq
    · exact hq
  -- any other timer that is still to fire is pending for another path
  have hkept : ∀ q j, .fired j ∉ Event.ran timer.path (some i) :: .fired i :: d.events →
      (.fired j ∉ d.events → d.scheduler.pending.get? q = some j) →
      (d.scheduler.pending.erase timer.path).get? q = some j := by
    intro q j hunfired' hold
    have hj := hold fun hf => hunfired' (List.mem_cons_of_mem _ (List.mem_cons_of_mem _ hf))
    rw [herased]
    by_cases hq : q = timer.path
    · rw [hq, hpending] at hj
      obtain rfl := Option.some.inj hj
      exact (hunfired' (List.mem_cons_of_mem _ List.mem_cons_self)).elim
    · rwa [if_neg hq]
  have hcredit : ∀ q, (Event.ran timer.path (some i) :: .fired i :: d.events).countP (Event.runs q) +
      (d.scheduler.pending.erase timer.path).keys.count q + due.count q ≤
      (Event.ran timer.path (some i) :: .fired i :: d.events).countP (Event.schedules q) := by
    intro q
    have hold := h.credit q
    have hgone := OrderedMap.count_keys_erase ((OrderedMap.mem_keys_iff _ _).2 ⟨i, hpending⟩) q
    rw [List.countP_cons, List.countP_cons, List.countP_cons, List.countP_cons]
    simp only [Event.runs, Event.schedules, decide_eq_true_eq, Bool.false_eq_true, if_false] at hold ⊢
    omega
  have hpast : ∀ earlier, earlier <:+ Event.fired i :: d.events → Honest earlier :=
    honest_cons h.past (fun _ _ he => by cases he) fun q => by
      simpa [List.countP_cons, Event.runs, Event.schedules] using h.credit q
  exact {
    pending := fun q j hq => h.pending q j (hother q j hq)
    bounded := h.bounded
    waiting := fun j q g hg hf hcurrent' => hkept q j hf fun hold => h.waiting j q g hg hold hcurrent'
    numbered := h.numbered
    stands := fun q j hq => ((h.stands q j (hother q j hq)).cons rfl).cons rfl
    standing := fun q j hstands hf => hkept q j hf (h.standing q j ((hstands.of_cons rfl).2.of_cons rfl).2)
    credit := hcredit
    past := honest_cons hpast (fun q j he => by
      cases he
      exact ⟨d.events, rfl, h.stands _ i hpending⟩) hcredit
    acted := fun q j earlier hearlier hstands => by
      rcases List.suffix_cons_iff.1 hearlier with heq | hearlier
      · cases heq
      rcases List.suffix_cons_iff.1 hearlier with heq | hearlier
      · obtain ⟨hj, rfl⟩ := List.cons.inj heq
        obtain rfl := Event.fired.inj hj
        obtain ⟨rfl, -⟩ := h.current_of_stands hstarted hunfired hstands
        exact List.suffix_refl _
      · exact ((h.acted q j earlier hearlier hstands).trans (List.suffix_cons _ _)).trans (List.suffix_cons _ _) }

/-! ## Courses -/

theorem run_get (d : Diary) : (get : StateM Diary Scheduler).run d = (d.scheduler, d) :=
  rfl

/-- What comes after a step is run with what the step gave. -/
theorem run_bind_of {α β : Type} {x : StateM Diary α} {f : α → StateM Diary β} {a : α} (h : x.run d = (a, d')) :
    (x >>= f).run d = (f a).run d' := by
  change (f (x.run d).1).run (x.run d).2 = _
  rw [h]

theorem run_act (action : Path → StateM Diary (Except φ Unit)) (timer : Option Nat) (p : Path) (g : Nat) (d : Diary) :
    (act (noting action timer) p g).run d = (.ok (),
      if d.scheduler.isCurrent p g then ((action p).run ⟨d.scheduler, .ran p timer :: d.events⟩).2 else d) := by
  rw [act, run_bind_of (run_get d)]
  by_cases hcurrent : d.scheduler.isCurrent p g = true
  · rw [if_pos hcurrent, if_pos hcurrent]
    rcases hacted : (action p).run ⟨d.scheduler, .ran p timer :: d.events⟩ with ⟨result, d'⟩
    have hnoted : (noting action timer p).run d = (result, d') := hacted
    rw [run_bind_of hnoted]
    cases result <;> rfl
  · rw [if_neg hcurrent, if_neg hcurrent]
    rfl

theorem fired_eq (d : Diary) (action : Path → StateM Diary (Except φ Unit)) (i : Nat) (timer : Timer) :
    d.fired action i timer =
      if d.scheduler.isCurrent timer.path timer.generation then
        ((action timer.path).run ⟨{ d.scheduler with pending := d.scheduler.pending.erase timer.path },
          .ran timer.path (some i) :: .fired i :: d.events⟩).2
      else ⟨d.scheduler, .fired i :: d.events⟩ := by
  change ((fire (noting action (some i)) timer).run ⟨d.scheduler, .fired i :: d.events⟩).2 = _
  rw [fire, run_bind_of (run_get _), takeFired]
  by_cases hcurrent : d.scheduler.isCurrent timer.path timer.generation = true
  · rw [if_pos hcurrent, if_pos hcurrent]
    exact (congrArg Prod.snd (run_act action (some i) timer.path timer.generation _)).trans (if_pos hcurrent)
  · rw [if_neg hcurrent, if_neg hcurrent]
    rfl

theorem flushed_eq (d : Diary) (action : Path → StateM Diary (Except φ Unit)) :
    d.flushed action = ((actAll (noting action none) d.scheduler.takePending.1).run
      ⟨d.scheduler.takePending.2, .flushed :: d.events⟩).2 := by
  change ((flush (noting action none)).run ⟨d.scheduler, .flushed :: d.events⟩).2 = _
  rcases hacted : (actAll (noting action none) d.scheduler.takePending.1).run
    ⟨d.scheduler.takePending.2, .flushed :: d.events⟩ with ⟨result, d'⟩
  have hset : (set d.scheduler.takePending.2 : StateM Diary PUnit).run ⟨d.scheduler, .flushed :: d.events⟩ =
      (⟨⟩, ⟨d.scheduler.takePending.2, .flushed :: d.events⟩) := rfl
  rw [flush, run_bind_of (run_get _)]
  dsimp only
  rw [run_bind_of hset, run_bind_of hacted]
  cases result <;> rfl

theorem deleted_eq {ε : Type} (d : Diary) (remove : Option (Path → StateM Diary (Removal ε))) (p : Path) :
    d.deleted remove p =
      match remove with
      | none => ⟨d.scheduler.bump p, .deleted p :: d.events⟩
      | some f => ((f p).run ⟨d.scheduler.bump p, .deleted p :: d.events⟩).2 := by
  cases remove with
  | none => rfl
  | some f =>
    change ((Scheduler.deleted (some f) p).run ⟨d.scheduler, .deleted p :: d.events⟩).2 = _
    unfold Scheduler.deleted
    rw [StateT.run_bind]
    change ((f p >>= _ : StateM Diary (Except ε Bool)).run ⟨d.scheduler.bump p, .deleted p :: d.events⟩).2 =
      ((f p).run ⟨d.scheduler.bump p, .deleted p :: d.events⟩).2
    rw [StateT.run_bind]
    rcases (f p).run ⟨d.scheduler.bump p, .deleted p :: d.events⟩ with ⟨removal, d'⟩
    cases removal <;> rfl

/-- Whether what leads from one diary to another keeps the accounts, whatever is due in flushes under way. -/
def KeepsOn (d d' : Diary) : Prop :=
  ∀ due, Keeps d due → Keeps d' due

variable {action : Path → StateM Diary (Except φ Unit)}

theorem Keeps.actAll (hacts : ∀ q d, KeepsOn d ((action q).run d).2) : ∀ (runs : List (Path × Nat)) {d : Diary},
    Keeps d (runs.map Prod.fst ++ due) → Keeps ((Scheduler.actAll (noting action none) runs).run d).2 due
  | [], d, h => h
  | (p, g) :: rest, d, h => by
    rw [Scheduler.actAll, run_bind_of (run_act action none p g d)]
    refine Keeps.actAll hacts rest ?_
    split
    · exact hacts p _ _ h.ran
    · exact h.skipped

theorem keepsOn_flushed (hacts : ∀ q d, KeepsOn d ((action q).run d).2) (d : Diary) : KeepsOn d (d.flushed action) := by
  intro due h
  have hpaths : d.scheduler.takePending.1.map Prod.fst = d.scheduler.pending.keys := by
    simp [takePending, Function.comp_def]
  rw [flushed_eq]
  exact Keeps.actAll hacts _ (hpaths ▸ h.taken)

theorem keepsOn_fired (hacts : ∀ q d, KeepsOn d ((action q).run d).2) (d : Diary) {timer : Timer}
    (hstarted : d.scheduler.timers[i]? = some timer) (hunfired : .fired i ∉ d.events) :
    KeepsOn d (d.fired action i timer) := by
  intro due h
  rw [fired_eq]
  by_cases hcurrent : d.scheduler.isCurrent timer.path timer.generation = true
  · rw [if_pos hcurrent]
    exact hacts timer.path _ _ (h.fired_current hstarted hunfired hcurrent)
  · rw [if_neg hcurrent]
    exact h.fired_late hstarted hunfired hcurrent

theorem keepsOn_deleted {ε : Type} {remove : Option (Path → StateM Diary (Removal ε))}
    (hremoves : ∀ f, remove = some f → ∀ q d, KeepsOn d ((f q).run d).2) (d : Diary) (p : Path) :
    KeepsOn d (d.deleted remove p) := by
  intro due h
  rw [deleted_eq]
  cases remove with
  | none => exact h.bumped p
  | some f => exact hremoves f rfl p _ _ (h.bumped p)

/-- **Every course of calls keeps the accounts.** -/
theorem Course.keepsOn (h : Course d d') : KeepsOn d d' := by
  induction h with
  | refl d => exact fun _ h => h
  | trans _ _ ih ih' => exact fun due h => ih' due (ih due h)
  | scheduled d p => exact fun _ h => h.scheduled p
  | cancelled d => exact fun _ h => h.cancelled
  | deleted d remove p _ ih => exact keepsOn_deleted ih d p
  | flushed d action _ ih => exact keepsOn_flushed ih d
  | fired d action _ i timer hstarted hunfired ih => exact keepsOn_fired ih d hstarted hunfired

/-- **Superseded runs never act.**  However calls and late timers follow one another, a pending timer is of the current
generation of its path; a timer that fired made its path's action run at once if nothing had superseded it since it was
started for that path, and not at all otherwise; and at no time has an action run more often for a path than the path had
been scheduled. -/
theorem superseded_never_run (h : Course {} d) :
    (∀ p i, d.scheduler.pending.get? p = some i → ∃ timer, d.scheduler.timers[i]? = some timer ∧ timer.path = p ∧
      d.scheduler.isCurrent p timer.generation = true) ∧
    (∀ p i earlier, .ran p (some i) :: earlier <:+ d.events → ∃ before, earlier = .fired i :: before ∧ Stands p i before) ∧
    (∀ p i before, .fired i :: before <:+ d.events → Stands p i before →
      .ran p (some i) :: .fired i :: before <:+ d.events) ∧
    ∀ p earlier, earlier <:+ d.events → earlier.countP (Event.runs p) ≤ earlier.countP (Event.schedules p) := by
  have hkeeps : Keeps d [] := h.keepsOn [] keeps_start
  refine ⟨fun p i hp => ?_, fun p i earlier hran => (hkeeps.past _ hran).stood p i earlier rfl, hkeeps.acted,
    fun p earlier hearlier => (hkeeps.past earlier hearlier).paid p⟩
  obtain ⟨g, hissued, hgeneration⟩ := hkeeps.pending p i hp
  rw [issued, List.getElem?_map, Option.map_eq_some_iff] at hissued
  obtain ⟨timer, htimer, hpair⟩ := hissued
  obtain ⟨rfl, rfl⟩ := Prod.mk.inj hpair
  exact ⟨timer, htimer, rfl, by simp [isCurrent, hgeneration]⟩

/-- A path is scheduled twice, the first timer fires late, and the action of the second one schedules the path again before
it fails. -/
theorem superseded_never_run_late_timer :
    let p : Path := ⟨"", ["a.ts"]⟩
    let once : Diary := Diary.scheduled {} p
    let twice : Diary := once.scheduled p
    let idle : Path → StateM Diary (Except Unit Unit) := fun _ => pure (.ok ())
    let again : Path → StateM Diary (Except Unit Unit) := fun q d => (.error (), d.scheduled q)
    let late : Diary := twice.fired idle 0 ⟨p, 1, true⟩
    let d : Diary := late.fired again 1 ⟨p, 2, false⟩
    Course {} d ∧
      d.events = [.scheduled p, .ran p (some 1), .fired 1, .fired 0, .scheduled p, .scheduled p] ∧
      Stands p 1 [.fired 0, .scheduled p, .scheduled p] ∧ ¬Stands p 0 [.scheduled p, .scheduled p] := by
  intro p once twice idle again late d
  have hcourse : Course {} d :=
    .trans (.trans (.trans (.scheduled {} p) (.scheduled once p))
      (.fired twice idle (fun _ d => .refl d) 0 _ (by decide) (by decide)))
      (.fired late again (fun q d => .scheduled d q) 1 _ (by decide) (by decide))
  have hevents : d.events = [.scheduled p, .ran p (some 1), .fired 1, .fired 0, .scheduled p, .scheduled p] := by decide
  obtain ⟨-, hstood, hacted, -⟩ := superseded_never_run hcourse
  rw [hevents] at hstood hacted
  refine ⟨hcourse, hevents, ?_, fun hstands => ?_⟩
  · obtain ⟨before, hbefore, hstands⟩ := hstood p 1 _ (List.suffix_cons _ _)
    cases hbefore
    exact hstands
  · have hran := hacted p 0 _ (by decide) hstands
    exact absurd hran (by decide)

end Scheduler
end Argot
