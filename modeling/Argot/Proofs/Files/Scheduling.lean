import Argot.Files.Scheduler
import Mathlib.Data.List.Dedup
/-!
# Scheduling — which runs are pending, and what a flush does

The pending paths stand in the order in which they were last scheduled: scheduling a path puts it at the end
(`keys_foldl_schedule`), and changing one's mind about it takes it out (`keys_foldl_bump`).  A flush takes all pending
runs over with generations that nothing but a further change can overtake, so an action that leaves the scheduler alone
acts once for each of them, in that order (`Watcher.flush_eq`).
-/
namespace Argot

/-- Where a list is duplicated later on, only the later element is kept. -/
theorem dedup_append_eq {α : Type} [DecidableEq α] (l' : List α) : ∀ (l : List α),
    (l ++ l').dedup = l.dedup.filter (· ∉ l') ++ l'.dedup
  | [] => by simp
  | a :: l => by
    have ih := dedup_append_eq l' l
    by_cases hl : a ∈ l
    · rw [List.cons_append, List.dedup_cons_of_mem (List.mem_append_left _ hl), List.dedup_cons_of_mem hl, ih]
    · by_cases hl' : a ∈ l'
      · rw [List.cons_append, List.dedup_cons_of_mem (List.mem_append_right _ hl'), List.dedup_cons_of_notMem hl, ih]
        simp [hl']
      · have hn : a ∉ l ++ l' := by simp [hl, hl']
        rw [List.cons_append, List.dedup_cons_of_notMem hn, List.dedup_cons_of_notMem hl, ih]
        simp [hl']

namespace Scheduler

variable (s : Scheduler)

/-! ## The pending paths -/

theorem keys_bump (p : Path) : (s.bump p).pending.keys = s.pending.keys.filter (· ≠ p) :=
  s.pending.keys_erase p

theorem keys_schedule (p : Path) : (s.schedule p).pending.keys = s.pending.keys.filter (· ≠ p) ++ [p] := by
  have hp : p ∉ (s.bump p).pending.keys := by simp [keys_bump]
  exact (OrderedMap.keys_insert _ _ _).trans (by rw [if_neg hp, keys_bump])

theorem keys_foldl_bump : ∀ (l : List Path) (s : Scheduler),
    (l.foldl bump s).pending.keys = s.pending.keys.filter (· ∉ l)
  | [], s => by simp
  | p :: l, s => by
    rw [List.foldl_cons, keys_foldl_bump l, keys_bump, List.filter_filter]
    refine List.filter_congr fun q _ => ?_
    simp [Bool.and_comm, not_or]

/-- **Paths that are scheduled one after another are pending at the end, in their order.** -/
theorem keys_foldl_schedule : ∀ {l : List Path} (s : Scheduler), l.Nodup →
    (l.foldl schedule s).pending.keys = s.pending.keys.filter (· ∉ l) ++ l
  | [], s, _ => by simp
  | p :: l, s, h => by
    rw [List.nodup_cons] at h
    have hp : [p].filter (· ∉ l) = [p] := by simp [h.1]
    rw [List.foldl_cons, keys_foldl_schedule (s.schedule p) h.2, keys_schedule, List.filter_append, hp,
      List.filter_filter, List.append_assoc]
    congr 1
    refine List.filter_congr fun q _ => ?_
    simp [Bool.and_comm, not_or]

theorem keys_cancelAll : s.cancelAll.pending.keys = [] := by
  unfold cancelAll
  rw [keys_foldl_bump]
  exact List.filter_eq_nil_iff.2 fun p hp => by simpa using hp

/-! ## Generations -/

theorem get?_generations_bump (p q : Path) : (s.bump p).generations.get? q =
    if q = p then some (s.generation p + 1) else s.generations.get? q :=
  s.generations.get?_insert p q _

theorem isSome_generations_foldl_bump {p : Path} : ∀ (l : List Path) (s : Scheduler),
    (s.generations.get? p).isSome ∨ p ∈ l → ((l.foldl bump s).generations.get? p).isSome
  | [], s, h => by simpa using h
  | q :: l, s, h => by
    refine isSome_generations_foldl_bump l (s.bump q) ?_
    by_cases hp : p = q
    · exact .inl (by simp [get?_generations_bump, hp])
    · rcases h with h | h
      · exact .inl (by simpa [get?_generations_bump, hp] using h)
      · exact .inr ((List.mem_cons.1 h).resolve_left hp)

/-- What is taken over is current as long as nobody changes their mind. -/
theorem isCurrent_cancelAll {p : Path} (h : p ∈ s.pending.keys) :
    s.cancelAll.isCurrent p (s.cancelAll.generation p) = true := by
  obtain ⟨g, hg⟩ := Option.isSome_iff_exists.1 (isSome_generations_foldl_bump s.pending.keys s (.inr h))
  unfold isCurrent generation cancelAll
  rw [hg]
  simp

end Scheduler
end Argot
