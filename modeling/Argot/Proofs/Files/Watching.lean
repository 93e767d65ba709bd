import Argot.Files.Watch
import Argot.Proofs.Files.Found
import Argot.Proofs.Files.OneFile
import Argot.Proofs.Files.Scheduling
/-!
# Watching — nothing is lost and nothing is done twice

`History` is what can happen to a watcher: files change, it looks again, it flushes.  A look is reported as the
difference of two snapshots (`reports_diff`), and from its reports alone follows what is pending: the paths reported as
changed since the last flush that were not reported as gone later, in the order of their last report (`Kept`).  A flush
acts once for each of them, also after actions that fail (`flush_eq`).  All this holds as long as each removal that a look
asks for is answered; after one that fails the rest is never told (`nothing_lost`, `second_file_is_forgotten`).
-/
namespace Argot
namespace Watcher

/-! ## Differences of snapshots -/

theorem mem_changes_iff (old new : Snapshot) (p : Path) :
    p ∈ changes old new ↔ ∃ stamp, new.get? p = some stamp ∧ old.get? p ≠ some stamp := by
  simp only [changes, List.mem_mergeSort, List.mem_map, List.mem_filter, bne_iff_ne]
  constructor
  · rintro ⟨⟨q, stamp⟩, ⟨hmem, hne⟩, rfl⟩
    exact ⟨stamp, (new.get?_eq_some_iff q stamp).2 hmem, hne⟩
  · rintro ⟨stamp, hnew, hold⟩
    exact ⟨(p, stamp), ⟨(new.get?_eq_some_iff p stamp).1 hnew, hold⟩, rfl⟩

theorem nodup_changes (old new : Snapshot) : (changes old new).Nodup := by
  have hsub : ((new.toList.filter fun e => old.get? e.1 != some e.2).map Prod.fst).Sublist (new.toList.map Prod.fst) :=
    List.filter_sublist.map Prod.fst
  exact (List.mergeSort_perm _ _).nodup_iff.2 (new.nodup.sublist hsub)

theorem mem_disappearances_iff (old new : Snapshot) (p : Path) :
    p ∈ disappearances old new ↔ p ∈ old.keys ∧ p ∉ new.keys := by
  rw [new.mem_keys_iff]
  simp [disappearances, List.mem_mergeSort, OrderedMap.contains, Option.eq_none_iff_forall_ne_some]

theorem nodup_disappearances (old new : Snapshot) : (disappearances old new).Nodup :=
  (List.mergeSort_perm _ _).nodup_iff.2 (old.nodup.filter _)

/-- A report tells the difference of two looks: each path that is new or has another stamp as changed, each that is no
longer there as gone, and each of them once. -/
structure Reports (old new : Snapshot) (changed gone : List Path) : Prop where
  nodup_changed : changed.Nodup
  mem_changed : ∀ p, p ∈ changed ↔ ∃ stamp, new.get? p = some stamp ∧ old.get? p ≠ some stamp
  nodup_gone : gone.Nodup
  mem_gone : ∀ p, p ∈ gone ↔ p ∈ old.keys ∧ p ∉ new.keys

theorem reports_diff (old new : Snapshot) : Reports old new (changes old new) (disappearances old new) where
  nodup_changed := nodup_changes old new
  mem_changed := mem_changes_iff old new
  nodup_gone := nodup_disappearances old new
  mem_gone := mem_disappearances_iff old new

theorem Reports.mem_keys {old new : Snapshot} {changed gone : List Path} {p : Path}
    (h : Reports old new changed gone) (hp : p ∈ changed) : p ∈ new.keys := by
  obtain ⟨stamp, hnew, -⟩ := (h.mem_changed p).1 hp
  exact (new.mem_keys_iff p).2 ⟨stamp, hnew⟩

variable {σ ε φ : Type} {look : StateM σ (Except ε Snapshot)} {action : Path → StateM σ (Except φ Unit)}
  {remove : Option (Path → StateM σ (Scheduler.Removal ε))} {w w' : Watcher} {s s' : σ}

/-- What comes after a step is run with what the step gave. -/
theorem run_bind_of {α β : Type} {x : StateT Watcher (StateM σ) α} {f : α → StateT Watcher (StateM σ) β}
    (a : α) (w' : Watcher) (s' : σ) (h : (x.run w).run s = ((a, w'), s')) :
    ((x >>= f).run w).run s = ((f a).run w').run s' := by
  change ((f ((x.run w).run s).1.1).run ((x.run w).run s).1.2).run ((x.run w).run s).2 = _
  rw [h]

theorem lift_run {α : Type} {x : StateM σ α} {a : α} (h : x.run s = (a, s')) :
    ((StateT.lift x : StateT Watcher (StateM σ) α).run w).run s = ((a, w), s') := by
  change (((x.run s).1, w), (x.run s).2) = _
  rw [h]

/-! ## One look -/

/-- What is done to have the output of a path removed. -/
def removal (remove : Option (Path → StateM σ (Scheduler.Removal ε))) (p : Path) (s : σ) : Scheduler.Removal ε × σ :=
  match remove with
  | none => (.done, s)
  | some remove => (remove p).run s

/-- Whether each removal is answered, whatever the answer, when paths are removed one after another. -/
def Answered (remove : Option (Path → StateM σ (Scheduler.Removal ε))) : List Path → σ → Prop
  | [], _ => True
  | p :: rest, s => (∀ e, (removal remove p s).1 ≠ .failed e) ∧ Answered remove rest (removal remove p s).2

/-- What removing paths one after another makes of the world. -/
def afterRemovals (remove : Option (Path → StateM σ (Scheduler.Removal ε))) (gone : List Path) (s : σ) : σ :=
  gone.foldl (fun s p => (removal remove p s).2) s

/-- What a removal is answered with: whether the output is gone. -/
def answerOf : Scheduler.Removal ε → Except ε Bool
  | .done | .missing => .ok true
  | .refused => .ok false
  | .failed e => .error e

theorem deleted_run (p : Path) (w : Watcher) (s : σ) : ((deleted remove p).run w).run s =
    ((answerOf (removal remove p s).1, { w with scheduler := w.scheduler.bump p }), (removal remove p s).2) := by
  unfold deleted Scheduler.deleted
  rw [run_bind_of () { w with scheduler := w.scheduler.bump p } s rfl]
  cases remove with
  | none => rfl
  | some remove =>
    rcases h : (remove p).run s with ⟨answer, s'⟩
    dsimp only [Option.map_some, removal]
    rw [run_bind_of _ _ _ (lift_run h), h]
    cases answer <;> rfl

theorem deleteAll_cons (p : Path) (rest : List Path) (w : Watcher) (s : σ) :
    ((deleteAll remove (p :: rest)).run w).run s =
      match (removal remove p s).1 with
      | .failed e => ((.error e, { w with scheduler := w.scheduler.bump p }), (removal remove p s).2)
      | _ => ((deleteAll remove rest).run { w with scheduler := w.scheduler.bump p }).run (removal remove p s).2 := by
  rw [deleteAll, run_bind_of _ _ _ (deleted_run p w s)]
  cases (removal remove p s).1 <;> rfl

/-- **Files that are gone are all told to the scheduler where each removal is answered.** -/
theorem deleteAll_of_answered : ∀ {gone : List Path} {w : Watcher} {s : σ}, Answered remove gone s →
    ((deleteAll remove gone).run w).run s =
      ((.ok (), { w with scheduler := gone.foldl Scheduler.bump w.scheduler }), afterRemovals remove gone s)
  | [], _, _, _ => rfl
  | p :: rest, w, s, h => by
    have ih := deleteAll_of_answered (w := { w with scheduler := w.scheduler.bump p }) h.2
    rw [deleteAll_cons]
    cases hp : (removal remove p s).1 with
    | failed e => exact (h.1 e hp).elim
    | done => exact ih
    | missing => exact ih
    | refused => exact ih

theorem answered_of_deleteAll : ∀ {gone : List Path} {w w' : Watcher} {s s' : σ},
    ((deleteAll remove gone).run w).run s = ((.ok (), w'), s') → Answered remove gone s
  | [], _, _, _, _, _ => trivial
  | p :: rest, w, w', s, s', h => by
    rw [deleteAll_cons] at h
    cases hp : (removal remove p s).1 with
    | failed e =>
      rw [hp] at h
      cases h
    | done | missing | refused =>
      rw [hp] at h
      refine ⟨fun e he => ?_, answered_of_deleteAll h⟩
      rw [hp] at he
      cases he

/-- The watcher that a look was passed on to, before it tells of the files that are gone. -/
def told (w : Watcher) (new : Snapshot) : Watcher where
  scheduler := (changes w.snapshot new).foldl Scheduler.schedule w.scheduler
  snapshot := new

theorem poll_of_error {e : ε} (h : look.run s = (.error e, s')) :
    ((poll look remove).run w).run s = ((.error e, w), s') := by
  rw [poll, run_bind_of _ _ _ (lift_run h)]
  rfl

theorem poll_of_ok {new : Snapshot} (h : look.run s = (.ok new, s')) : ((poll look remove).run w).run s =
    match ((deleteAll remove (disappearances w.snapshot new)).run (told w new)).run s' with
    | ((.ok (), w'), s') => ((.ok (changes w.snapshot new, disappearances w.snapshot new), w'), s')
    | ((.error e, w'), s') => ((.error e, w'), s') := by
  rcases hgone : ((deleteAll remove (disappearances w.snapshot new)).run (told w new)).run s' with ⟨⟨answer, w'⟩, s''⟩
  rw [poll, run_bind_of _ _ _ (lift_run h)]
  dsimp only
  rw [run_bind_of w w s' rfl, run_bind_of ⟨⟩ (told w new) s' rfl,
    run_bind_of _ _ _ hgone]
  cases answer <;> rfl

/-- **A look whose removals are answered reports the difference to the last look.** -/
theorem poll_of_answered {new : Snapshot} (h : look.run s = (.ok new, s'))
    (hanswered : Answered remove (disappearances w.snapshot new) s') : ((poll look remove).run w).run s =
      ((.ok (changes w.snapshot new, disappearances w.snapshot new),
        { told w new with
          scheduler := (disappearances w.snapshot new).foldl Scheduler.bump (told w new).scheduler }),
        afterRemovals remove (disappearances w.snapshot new) s') := by
  rw [poll_of_ok h, deleteAll_of_answered hanswered]

/-! ## One flush -/

/-- What acting for paths one after another makes of the world, whether the actions fail or not. -/
def acted (action : Path → StateM σ (Except φ Unit)) (due : List Path) (s : σ) : σ :=
  due.foldl (fun s p => ((action p).run s).2) s

/-- An action that fails has acted, and its failure goes no further. -/
theorem act_of_current {p : Path} {g : Nat} (h : w.scheduler.isCurrent p g = true) :
    ((Scheduler.act (fun p => StateT.lift (action p)) p g : StateT Watcher (StateM σ) (Except φ Unit)).run w).run s =
      ((.ok (), w), ((action p).run s).2) := by
  rw [Scheduler.act, run_bind_of w.scheduler w s rfl, if_pos h]
  rcases hacted : (action p).run s with ⟨result, s'⟩
  rw [run_bind_of _ _ _ (lift_run hacted)]
  cases result <;> rfl

theorem actAll_of_current : ∀ {due : List (Path × Nat)} {s : σ}, (∀ d ∈ due, w.scheduler.isCurrent d.1 d.2 = true) →
    ((Scheduler.actAll (fun p => StateT.lift (action p)) due : StateT Watcher (StateM σ) (Except φ Unit)).run w).run s =
      ((.ok (), w), acted action (due.map Prod.fst) s)
  | [], _, _ => rfl
  | d :: due, s, h => by
    rw [Scheduler.actAll, run_bind_of _ _ _ (act_of_current (h d List.mem_cons_self))]
    exact actAll_of_current fun d' hd' => h d' (List.mem_cons_of_mem _ hd')

/-- **A flush acts once for each pending path, in their order**, also after actions that fail, and leaves nothing
pending. -/
theorem flush_eq (w : Watcher) (s : σ) : ((flush action).run w).run s =
    ((.ok w.scheduler.pending.keys.length, { w with scheduler := w.scheduler.cancelAll }),
      acted action w.scheduler.pending.keys s) := by
  have hcurrent : ∀ d ∈ w.scheduler.takePending.1, w.scheduler.cancelAll.isCurrent d.1 d.2 = true := by
    intro d hd
    obtain ⟨p, hp, rfl⟩ := List.mem_map.1 hd
    exact w.scheduler.isCurrent_cancelAll hp
  have hacted : ((Scheduler.actAll (fun p => StateT.lift (action p)) w.scheduler.takePending.1 :
      StateT Watcher (StateM σ) (Except φ Unit)).run { w with scheduler := w.scheduler.cancelAll }).run s = _ :=
    actAll_of_current hcurrent
  have hpaths : w.scheduler.takePending.1.map Prod.fst = w.scheduler.pending.keys := by
    simp [Scheduler.takePending, Function.comp_def]
  rw [hpaths] at hacted
  rw [flush, Scheduler.flush, run_bind_of w.scheduler w s rfl]
  dsimp only
  rw [run_bind_of ⟨⟩ { w with scheduler := w.scheduler.cancelAll } s rfl, run_bind_of _ _ _ hacted]
  rw [← hpaths, List.length_map]
  rfl

/-! ## Any number of looks and flushes -/

/-- What a watcher reports: the difference that a look found, or that it has flushed. -/
inductive Report where
  | difference (changed gone : List Path)
  | flush

/-- The paths that were scheduled since the last flush, again and again; the latest report comes first. -/
def scheduled : List Report → List Path
  | [] | .flush :: _ => []
  | .difference changed _ :: earlier => scheduled earlier ++ changed

/-- Whether a path was reported as changed since the last flush and since it was last reported as gone. -/
def awaited (p : Path) : List Report → Bool
  | [] | .flush :: _ => false
  | .difference changed gone :: earlier => changed.contains p || (!gone.contains p && awaited p earlier)

/-- The paths whose runs are due by what was reported, in the order in which they were last scheduled. -/
def due (reports : List Report) : List Path :=
  (scheduled reports).dedup.filter (awaited · reports)

/-- What can happen to a watcher with a scheduler of its own: it is started with a first look, the world changes in any
way, and it looks or flushes.  A look that fails finds nothing out; one whose report fails has no place here. -/
inductive History (look : StateM σ (Except ε Snapshot)) (action : Path → StateM σ (Except φ Unit))
    (remove : Option (Path → StateM σ (Scheduler.Removal ε))) : List Report → Watcher → σ → Prop
  | start (snapshot : Snapshot) (s : σ) : History look action remove [] { snapshot } s
  | change {reports w s} (s' : σ) : History look action remove reports w s → History look action remove reports w s'
  | blind {reports w s e s₁ answer w' s'} : History look action remove reports w s → look.run s = (.error e, s₁) →
      ((poll look remove).run w).run s = ((answer, w'), s') → History look action remove reports w' s'
  | poll {reports w s changed gone w' s'} : History look action remove reports w s →
      ((poll look remove).run w).run s = ((.ok (changed, gone), w'), s') →
      History look action remove (.difference changed gone :: reports) w' s'
  | flush {reports w s answer w' s'} : History look action remove reports w s →
      ((flush action).run w).run s = ((answer, w'), s') → History look action remove (.flush :: reports) w' s'

/-- The runs that are pending are those that are due, and their files were there at the last look. -/
structure Kept (reports : List Report) (w : Watcher) : Prop where
  keys : w.scheduler.pending.keys = due reports
  listed : ∀ p ∈ due reports, p ∈ w.snapshot.keys

theorem due_difference {changed gone : List Path} {reports : List Report} (hchanged : changed.Nodup)
    (hapart : ∀ p ∈ changed, p ∉ gone) : due (.difference changed gone :: reports) =
      ((due reports).filter (· ∉ changed) ++ changed).filter (· ∉ gone) := by
  have hkeep : changed.filter (awaited · (.difference changed gone :: reports)) = changed.filter (· ∉ gone) := by
    refine List.filter_congr fun p hp => ?_
    simp [awaited, hp, hapart p hp]
  unfold due
  rw [scheduled, dedup_append_eq, hchanged.dedup, List.filter_append, List.filter_append, hkeep, List.filter_filter,
    List.filter_filter, List.filter_filter]
  congr 1
  refine List.filter_congr fun p _ => ?_
  by_cases hp : p ∈ changed <;> simp [awaited, hp]

/-- A look that reports found files, and each removal was answered. -/
theorem poll_eq_ok {changed gone : List Path} (h : ((poll look remove).run w).run s = ((.ok (changed, gone), w'), s')) :
    ∃ new s₁, look.run s = (.ok new, s₁) ∧ Answered remove gone s₁ ∧ changed = changes w.snapshot new ∧
      gone = disappearances w.snapshot new ∧
      w' = { told w new with scheduler := gone.foldl Scheduler.bump (told w new).scheduler } := by
  rcases hlook : look.run s with ⟨found, s₁⟩
  cases found with
  | error e =>
    rw [poll_of_error hlook] at h
    cases h
  | ok new =>
    have hanswered : Answered remove (disappearances w.snapshot new) s₁ := by
      rw [poll_of_ok hlook] at h
      rcases hgone : ((deleteAll remove (disappearances w.snapshot new)).run (told w new)).run s₁ with
        ⟨⟨answer, w₂⟩, s₂⟩
      rw [hgone] at h
      cases answer with
      | error e => cases h
      | ok => exact answered_of_deleteAll hgone
    rw [poll_of_answered hlook hanswered] at h
    cases h
    exact ⟨new, s₁, rfl, hanswered, rfl, rfl, rfl⟩

/-- One look keeps what is pending to what is due. -/
theorem Kept.poll {reports : List Report} {changed gone : List Path} (hk : Kept reports w)
    (h : ((poll look remove).run w).run s = ((.ok (changed, gone), w'), s')) :
    Kept (.difference changed gone :: reports) w' := by
  obtain ⟨new, s₁, -, -, rfl, rfl, rfl⟩ := poll_eq_ok h
  have hreports := reports_diff w.snapshot new
  have hapart : ∀ p ∈ changes w.snapshot new, p ∉ disappearances w.snapshot new := fun p hp hgone =>
    ((hreports.mem_gone p).1 hgone).2 (hreports.mem_keys hp)
  constructor
  · rw [due_difference hreports.nodup_changed hapart, ← hk.keys, Scheduler.keys_foldl_bump]
    dsimp only [told]
    rw [Scheduler.keys_foldl_schedule _ hreports.nodup_changed]
  · intro p hp
    rw [due_difference hreports.nodup_changed hapart, List.mem_filter, List.mem_append, List.mem_filter] at hp
    rcases hp with ⟨⟨hdue, -⟩ | hchanged, hgone⟩
    · by_contra hnew
      have hp : p ∈ disappearances w.snapshot new := (hreports.mem_gone p).2 ⟨hk.listed p hdue, hnew⟩
      simp [hp] at hgone
    · exact hreports.mem_keys hchanged

theorem History.kept {reports : List Report} (h : History look action remove reports w s) : Kept reports w := by
  induction h with
  | start snapshot s => exact ⟨rfl, fun p hp => (List.not_mem_nil hp).elim⟩
  | change s' _ ih => exact ih
  | blind _ hlook hpoll ih =>
    rw [poll_of_error hlook] at hpoll
    cases hpoll
    exact ih
  | poll _ hpoll ih => exact ih.poll hpoll
  | flush _ hflush ih =>
    rw [flush_eq] at hflush
    cases hflush
    exact ⟨Scheduler.keys_cancelAll _, fun p hp => (List.not_mem_nil hp).elim⟩

theorem mem_scheduled_of_awaited {p : Path} :
    ∀ {reports : List Report}, awaited p reports = true → p ∈ scheduled reports
  | [], h | .flush :: _, h => by cases h
  | .difference changed gone :: earlier, h => by
    rw [awaited, Bool.or_eq_true, Bool.and_eq_true] at h
    rcases h with h | ⟨-, h⟩
    · exact List.mem_append_right _ (by simpa using h)
    · exact List.mem_append_left _ (mem_scheduled_of_awaited h)

theorem mem_due_iff (p : Path) (reports : List Report) : p ∈ due reports ↔ awaited p reports = true := by
  unfold due
  rw [List.mem_filter, List.mem_dedup]
  exact ⟨fun h => h.2, fun h => ⟨mem_scheduled_of_awaited h, h⟩⟩

theorem Kept.mem_pendingPaths_iff {reports : List Report} (hk : Kept reports w) (p : Path) :
    p ∈ w.scheduler.pendingPaths ↔ p ∈ w.snapshot.keys ∧ awaited p reports = true := by
  rw [← mem_due_iff]
  unfold Scheduler.pendingPaths
  rw [List.mem_mergeSort, hk.keys]
  exact ⟨fun h => ⟨hk.listed p h, h⟩, fun h => h.2⟩

/-- **Nothing is lost and nothing is done twice**, whatever happened to a watcher so far.  The pending paths are those
listed by its last look that were reported as changed since the last flush and since they were last reported as gone.
Looking again, if files can be looked at, reports exactly the difference to the last look as soon as each removal that
it asks for is answered; if not, nothing has happened.  Flushing acts exactly once for each pending path, in the order
in which they were last scheduled and also where actions fail, tells their number and leaves nothing pending. -/
theorem nothing_lost {reports : List Report} (h : History look action remove reports w s) :
    (∀ p, p ∈ w.scheduler.pendingPaths ↔ p ∈ w.snapshot.keys ∧ awaited p reports = true) ∧
    (∀ e s₁, look.run s = (.error e, s₁) → ((poll look remove).run w).run s = ((.error e, w), s₁)) ∧
    (∀ new s₁, look.run s = (.ok new, s₁) →
      (Answered remove (disappearances w.snapshot new) s₁ ↔ ∃ changed gone w' s',
        ((poll look remove).run w).run s = ((.ok (changed, gone), w'), s') ∧ w'.snapshot = new ∧
          Reports w.snapshot new changed gone ∧ s' = afterRemovals remove gone s₁)) ∧
    ∃ w', ((flush action).run w).run s = ((.ok (due reports).length, w'), acted action (due reports) s) ∧
      w'.scheduler.pendingPaths = [] ∧ w'.snapshot = w.snapshot := by
  have hkept := h.kept
  refine ⟨hkept.mem_pendingPaths_iff, fun e s₁ hlook => poll_of_error hlook, fun new s₁ hlook => ⟨?_, ?_⟩,
    { w with scheduler := w.scheduler.cancelAll }, ?_, ?_, rfl⟩
  · intro hanswered
    exact ⟨_, _, _, _, poll_of_answered hlook hanswered, rfl, reports_diff w.snapshot new, rfl⟩
  · rintro ⟨changed, gone, w', s', hpoll, -⟩
    obtain ⟨new', s₂, hlook', hanswered, -, rfl, -⟩ := poll_eq_ok hpoll
    rw [hlook] at hlook'
    cases hlook'
    exact hanswered
  · rw [flush_eq, hkept.keys]
  · unfold Scheduler.pendingPaths
    rw [Scheduler.keys_cancelAll]
    exact List.mergeSort_nil

/-- Two files and a note of the runs, which all fail: `b.js` comes when `a.js` goes, so that only `b.js` is converted. -/
theorem nothing_lost_two_files :
    let a : Path := ⟨"", ["a.js"]⟩
    let b : Path := ⟨"", ["b.js"]⟩
    let look : StateM (Snapshot × List Path) (Except Unit Snapshot) := fun s => (.ok s.1, s)
    let action : Path → StateM (Snapshot × List Path) (Except Unit Unit) := fun p s => (.error (), (s.1, s.2 ++ [p]))
    let remove : Option (Path → StateM (Snapshot × List Path) (Scheduler.Removal Unit)) := some fun _ => pure .missing
    let onlyB : Snapshot := .ofList [(b, .given 1)]
    ∃ w, History look action remove [.difference [b] [a], .difference [a] []] w (onlyB, []) ∧
      (∀ p, p ∈ w.scheduler.pendingPaths ↔ p ∈ w.snapshot.keys ∧ p = b) ∧
      ∃ w', ((flush action).run w).run (onlyB, []) = ((.ok 1, w'), (onlyB, [b])) := by
  intro a b look action remove onlyB
  let onlyA : Snapshot := .ofList [(a, .given 1)]
  have hnew : changes .empty onlyA = [a] := List.mergeSort_singleton a
  have hnone : disappearances .empty onlyA = [] := List.mergeSort_nil
  have hchanged : changes onlyA onlyB = [b] := List.mergeSort_singleton b
  have hgone : disappearances onlyA onlyB = [a] := List.mergeSort_singleton a
  have hanswered : ∀ l s, Answered remove l s := by
    intro l
    induction l with
    | nil => exact fun s => trivial
    | cons p l ih => exact fun s => ⟨fun e he => (by cases he), ih _⟩
  have hstart : History look action remove [] {} (onlyA, []) := .change _ (.start .empty (.empty, []))
  have hfirst : ((poll look remove).run {}).run (onlyA, []) = _ := poll_of_answered rfl (hanswered _ _)
  rw [hnew, hnone] at hfirst
  have hthen : History look action remove [.difference [a] []] _ (onlyB, []) := .change _ (.poll hstart hfirst)
  have hsecond : ((poll look remove).run (told {} onlyA)).run (onlyB, []) = _ :=
    poll_of_answered rfl (hanswered (disappearances onlyA onlyB) _)
  rw [show (told {} onlyA).snapshot = onlyA from rfl, hchanged, hgone] at hsecond
  have hhistory := History.poll hthen hsecond
  have hdue : due [.difference [b] [a], .difference [a] []] = [b] := by decide
  obtain ⟨hpending, -, -, w', hflush, -, -⟩ := nothing_lost hhistory
  rw [hdue] at hflush
  refine ⟨_, hhistory, fun p => ?_, w', hflush⟩
  rw [hpending p, ← mem_due_iff, hdue, List.mem_singleton]

end Watcher

namespace Watch

/-- The files of an empty directory. -/
theorem look_emptied (w : Workshop) (hpatterns : w.settings.patterns = ({} : BatchSettings).patterns)
    (hrecursive : w.settings.recursive = true) :
    look { w with tree := FileTree.workDirectory [] } ⟨"", []⟩ true = .ok .empty := by
  have hbelow : (filesBelow (FileTree.workDirectory []) true w.settings.exclude ⟨"", []⟩ ["work"]
      ({} : BatchSettings).patterns).toOption = some [] := by rfl
  have hfind : Workshop.find { w with tree := FileTree.workDirectory [] } ⟨"", []⟩
      (Workshop.patternsFor { w with tree := FileTree.workDirectory [] } true) = .ok [] := by
    unfold Workshop.find Workshop.patternsFor
    rw [if_pos rfl, hpatterns, hrecursive]
    exact findFiles_of_ordered ["work"] rfl rfl rfl hbelow .nil
  unfold look
  rw [hfind]
  rfl

/-- A look of a watch is that of its watcher at its workshop. -/
theorem poll_run (watch : Watch) {answer : Except BatchError (List Path × List Path)} {w' : Watcher} {s' : Workshop}
    (h : ((Watcher.poll (listFiles (m := Id) watch.target watch.toForms) (some remove)).run watch.toWatcher).run
      watch.workshop = ((answer, w'), s')) :
    (poll (m := Id)).run watch = (answer, { watch with toWatcher := w', workshop := s' }) :=
  congrArg (fun ran : (Except BatchError (List Path × List Path) × Watcher) × Workshop =>
    (ran.1.1, ({ watch with toWatcher := ran.1.2, workshop := ran.2 } : Watch))) h

/-- A path that the system is not asked about makes a removal fail. -/
theorem removal_of_unasked {w w' : Workshop} {p q : Path}
    (h : w.removeOutput p = (.error (.system ⟨.nullCharacter, q⟩), w')) :
    Watcher.removal (some (remove (m := Id))) p w = (.failed (.system ⟨.nullCharacter, q⟩), w') := by
  unfold Watcher.removal remove
  simp only [bind_pure_comp, StateT.run_bind, StateT.run_get, StateT.run_map, StateT.run_set, map_pure, h,
    reduceCtorEq, ↓reduceIte]
  rfl

/-- **After a removal that fails the next file that is gone is forgotten**: the look that asked for it is over, and the
next one finds nothing new. -/
theorem second_file_is_forgotten :
    let w : Workshop := { tree := FileTree.workDirectory [("a.js", []), ("b.js", [])]
                          settings := { outputDirectory := some ⟨"", ["x\x00y"]⟩ } }
    let fault : BatchError := .system ⟨.nullCharacter, ⟨"", ["x\x00y", "a.gachi"]⟩⟩
    ∃ watch watch' watch'' : Watch, start w ⟨"", []⟩ true = .ok watch ∧
      watch.snapshot.keys = [⟨"", ["a.js"]⟩, ⟨"", ["b.js"]⟩] ∧
      (poll (m := Id)).run { watch with workshop := { w with tree := FileTree.workDirectory [] } } =
        (.error fault, watch') ∧
      (poll (m := Id)).run watch' = (.ok ([], []), watch'') := by
  intro w fault
  let a : Path := ⟨"", ["a.js"]⟩
  let b : Path := ⟨"", ["b.js"]⟩
  let both : Snapshot := .ofList [(a, .given 1), (b, .given 1)]
  let emptied : Workshop := { w with tree := FileTree.workDirectory [] }
  let watch : Watch := { workshop := w, target := ⟨"", []⟩, toForms := true, snapshot := both }
  have hfind : w.find ⟨"", []⟩ (w.patternsFor true) = .ok [a, b] :=
    findFiles_of_ordered ["work"] rfl rfl (by decide) (by decide +kernel) (by decide)
  have hstamps : ([a, b].filterMap fun p => (w.tree.stamp? p).map (p, ·)) = [(a, .given 1), (b, .given 1)] := by
    decide +kernel
  have hstart : start w ⟨"", []⟩ true = .ok watch := by
    unfold start look
    rw [hfind]
    exact congrArg (fun l => Except.ok ({ workshop := w, target := ⟨"", []⟩, snapshot := .ofList l } : Watch)) hstamps
  have hlook : (listFiles (m := Id) ⟨"", []⟩ true).run emptied = (.ok .empty, emptied) :=
    congrArg (·, emptied) (look_emptied w rfl rfl)
  have hgone : Watcher.disappearances watch.snapshot .empty = [a, b] := List.mergeSort_of_pairwise (by decide)
  have hremoval : Watcher.removal (some (remove (m := Id))) a emptied = (.failed fault, emptied) := by
    have hpath : emptied.outputPath a formExtension = .ok ⟨"", ["x\x00y", "a.gachi"]⟩ := by
      have hname : Path.child ⟨"", ["x\x00y"]⟩ (a.stem ++ formExtension) = ⟨"", ["x\x00y", "a.gachi"]⟩ := by
        decide +kernel
      exact congrArg Except.ok hname
    have hunasked : Path.hasNull (Path.toString ⟨"", ["x\x00y", "a.gachi"]⟩) = true := by decide +kernel
    have hremove : emptied.tree.remove ⟨"", ["x\x00y", "a.gachi"]⟩ =
        .error ⟨.nullCharacter, ⟨"", ["x\x00y", "a.gachi"]⟩⟩ := by
      unfold FileTree.remove FileTree.locate
      rw [if_pos hunasked]
      rfl
    have hsuffix : (a.suffix == formExtension) = false := by decide +kernel
    have hremovable : emptied.removable a ["work", "a.js"] = .ok (some ⟨"", ["x\x00y", "a.gachi"]⟩) := by
      unfold Workshop.removable
      rw [hsuffix, hpath]
      rfl
    have hplace : a.resolve emptied.tree.base = .ok ["work", "a.js"] := rfl
    have hresult := Workshop.removeOutput_eq hplace
    rw [hremovable] at hresult
    dsimp only at hresult
    rw [hremove] at hresult
    exact removal_of_unasked hresult
  let after : Watcher := { Watcher.told watch.toWatcher .empty with
                           scheduler := (Watcher.told watch.toWatcher .empty).scheduler.bump a }
  have hfirst : ((Watcher.poll (listFiles ⟨"", []⟩ true) (some (remove (m := Id)))).run watch.toWatcher).run emptied =
    _ := Watcher.poll_of_ok hlook
  rw [hgone, Watcher.deleteAll_cons, hremoval] at hfirst
  have hnothing : Watcher.disappearances after.snapshot .empty = [] := List.mergeSort_nil
  have hunchanged : Watcher.changes after.snapshot .empty = [] := List.mergeSort_nil
  have hsecond : ((Watcher.poll (listFiles ⟨"", []⟩ true) (some (remove (m := Id)))).run after).run emptied = _ :=
    Watcher.poll_of_answered hlook (hnothing ▸ trivial)
  rw [hnothing, hunchanged] at hsecond
  exact ⟨watch, _, _, hstart, rfl, poll_run { watch with workshop := emptied } hfirst,
    poll_run { watch with toWatcher := after, workshop := emptied } hsecond⟩

end Watch
end Argot
