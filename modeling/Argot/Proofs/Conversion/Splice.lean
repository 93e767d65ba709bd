import Argot.Conversion.Edit
import Argot.Proofs.Source.Layout
/-!
# Splice — edits that lie in order

A source is cut into bytes that are copied and stretches that are replaced (`Part`).  The edits that replace the
stretches are in order already, and applying them gives what the parts spell (`applyAll_edits`).
-/
namespace Argot

open Text

/-- A part of a source: a byte that stays, or bytes that give way to a spelling. -/
inductive Part where
  | copy (b : UInt8)
  | swap (old : List UInt8) (new : Spelling)

namespace Part

def source : List Part → List UInt8
  | [] => []
  | copy b :: ps => b :: source ps
  | swap old _ :: ps => old ++ source ps

/-- The edits that make the change, in a source where the parts begin at a position. -/
def edits (start : Nat) : List Part → List Edit
  | [] => []
  | copy _ :: ps => edits (start + 1) ps
  | swap old new :: ps => ⟨start, (start + old.length : Nat), new⟩ :: edits (start + old.length) ps

def target : List Part → Except EncodeError (List UInt8)
  | [] => .ok []
  | copy b :: ps => (target ps).map (b :: ·)
  | swap _ new :: ps => do
    let bytes ← new.bytes
    let rest ← target ps
    return bytes ++ rest

def copies (bytes : List UInt8) : List Part :=
  bytes.map copy

/-- The parts of bytes with those from `i` to `j` replaced. -/
def around (bytes : List UInt8) (i j : Nat) (new : Spelling) : List Part :=
  copies (bytes.take i) ++ swap ((bytes.drop i).take (j - i)) new :: copies (bytes.drop j)

/-! ## Parts in a row -/

theorem source_append : ∀ (ps qs : List Part), source (ps ++ qs) = source ps ++ source qs
  | [], _ => rfl
  | copy b :: ps, qs => by rw [List.cons_append, source, source, source_append ps qs, List.cons_append]
  | swap old new :: ps, qs => by rw [List.cons_append, source, source, source_append ps qs, List.append_assoc]

theorem edits_append : ∀ (ps qs : List Part) (start : Nat),
    edits start (ps ++ qs) = edits start ps ++ edits (start + (source ps).length) qs
  | [], _, _ => rfl
  | copy b :: ps, qs, start => by
    rw [List.cons_append, edits, edits, source, edits_append ps qs, List.length_cons]
    have hstart : start + 1 + (source ps).length = start + ((source ps).length + 1) := by omega
    rw [hstart]
  | swap old new :: ps, qs, start => by
    rw [List.cons_append, edits, edits, source, edits_append ps qs, List.length_append, List.cons_append, Nat.add_assoc]

theorem target_append : ∀ (ps qs : List Part), target (ps ++ qs) = do
    let first ← target ps
    let rest ← target qs
    return first ++ rest
  | [], qs => by
    rw [List.nil_append, target]
    cases target qs <;> rfl
  | copy b :: ps, qs => by
    rw [List.cons_append, target, target, target_append ps qs]
    cases target ps <;> cases target qs <;> rfl
  | swap old new :: ps, qs => by
    rw [List.cons_append, target, target, target_append ps qs]
    cases new.bytes with
    | error e => rfl
    | ok bytes =>
      cases target ps with
      | error e => rfl
      | ok first =>
        cases target qs with
        | error e => rfl
        | ok rest =>
          change Except.ok (bytes ++ (first ++ rest)) = Except.ok (bytes ++ first ++ rest)
          rw [List.append_assoc]

theorem target_append_eq_ok_iff {ps qs : List Part} {bytes : List UInt8} : target (ps ++ qs) = .ok bytes ↔
    ∃ first rest, target ps = .ok first ∧ target qs = .ok rest ∧ bytes = first ++ rest := by
  rw [target_append]
  cases target ps with
  | error e => simp [bind, Except.bind]
  | ok first =>
    cases target qs with
    | error e => simp [bind, Except.bind]
    | ok rest => simp [bind, Except.bind, pure, Except.pure, eq_comm]

@[simp] theorem source_copies : ∀ (bytes : List UInt8), source (copies bytes) = bytes
  | [] => rfl
  | b :: bytes => congrArg (b :: ·) (source_copies bytes)

@[simp] theorem edits_copies : ∀ (bytes : List UInt8) (start : Nat), edits start (copies bytes) = []
  | [], _ => rfl
  | _ :: bytes, start => edits_copies bytes (start + 1)

@[simp] theorem target_copies : ∀ (bytes : List UInt8), target (copies bytes) = .ok bytes
  | [] => rfl
  | b :: bytes => by
    change (target (copies bytes)).map (b :: ·) = _
    rw [target_copies bytes]
    rfl

section
variable {bytes : List UInt8} {i j : Nat} (new : Spelling)

theorem source_around (hij : i ≤ j) : source (around bytes i j new) = bytes := by
  unfold around
  rw [source_append, source_copies, source, source_copies]
  have hj : bytes.drop j = (bytes.drop i).drop (j - i) := by
    rw [List.drop_drop, Nat.add_sub_cancel' hij]
  rw [hj, List.take_append_drop, List.take_append_drop]

theorem edits_around (hij : i ≤ j) (hj : j ≤ bytes.length) (start : Nat) :
    edits start (around bytes i j new) = [⟨(start + i : Nat), (start + j : Nat), new⟩] := by
  unfold around
  rw [edits_append, edits_copies, source_copies, edits, edits_copies]
  have hi : (bytes.take i).length = i := List.length_take_of_le (hij.trans hj)
  have hold : ((bytes.drop i).take (j - i)).length = j - i :=
    List.length_take_of_le (by rw [List.length_drop]; omega)
  have hstop : start + i + (j - i) = start + j := by omega
  rw [hi, hold, hstop]
  rfl

end

/-! ## Applying the edits -/

theorem le_of_mem_edits {e : Edit} : ∀ (ps : List Part) {start : Nat}, e ∈ edits start ps →
    (start : Int) ≤ e.start ∧ e.start ≤ e.stop
  | copy b :: ps, start, h => by
    have := le_of_mem_edits ps h
    omega
  | swap old new :: ps, start, h => by
    rcases List.mem_cons.1 h with rfl | h
    · dsimp only
      omega
    · have := le_of_mem_edits ps h
      omega

theorem pairwise_edits : ∀ (ps : List Part) (start : Nat), (edits start ps).Pairwise fun a b => Edit.before a b = true
  | [], _ => .nil
  | copy b :: ps, start => pairwise_edits ps (start + 1)
  | swap old new :: ps, start => by
    refine .cons (fun e he => ?_) (pairwise_edits ps _)
    obtain ⟨hstart, hstop⟩ := le_of_mem_edits _ he
    simp only [Edit.before, Bool.or_eq_true, Bool.and_eq_true, decide_eq_true_eq, beq_iff_eq]
    omega

/-- What a splice gives from a cursor on, when bytes that stay stand between the cursor and the parts. -/
theorem splice_edits : ∀ (ps : List Part) (done pending : List UInt8),
    Edit.splice (done ++ pending ++ source ps) done.length (edits (done.length + pending.length) ps) =
      ((target ps).mapError EditError.unencodable).map (pending ++ ·)
  | [], done, pending => by
    rw [source, List.append_nil, edits, Edit.splice, sliceFrom_append, target]
    simp [Except.mapError, Except.map]
  | copy b :: ps, done, pending => by
    have h := splice_edits ps done (pending ++ [b])
    rw [List.length_append, List.length_singleton, ← Nat.add_assoc] at h
    rw [source, edits, target]
    have hsource : done ++ pending ++ b :: source ps = done ++ (pending ++ [b]) ++ source ps := by simp
    rw [hsource, h]
    cases target ps <;> simp [Except.mapError, Except.map]
  | swap old new :: ps, done, pending => by
    rw [source, edits, target, Edit.splice]
    have hlt : ¬((done.length + pending.length : Nat) : Int) < (done.length : Int) := by omega
    rw [if_neg hlt]
    cases new.bytes with
    | error e => rfl
    | ok bytes =>
      have h := splice_edits ps (done ++ pending ++ old) []
      rw [List.append_nil, List.length_nil, Nat.add_zero, List.length_append, List.length_append] at h
      have hsource : done ++ pending ++ (old ++ source ps) = done ++ pending ++ old ++ source ps := by simp
      dsimp only
      rw [hsource, h, ← hsource, slice_append]
      cases target ps <;> simp [Except.mapError, Except.map, bind, Except.bind, pure, Except.pure]

/-- **Applying the edits gives what the parts spell.** -/
theorem applyAll_edits (ps : List Part) : Edit.applyAll (source ps) (edits 0 ps) =
    ((target ps).mapError EditError.unencodable).bind fun bytes =>
      (decodeString bytes).mapError EditError.undecodable := by
  have h := splice_edits ps [] []
  simp only [List.nil_append, List.length_nil, Nat.add_zero] at h
  unfold Edit.applyAll
  rw [List.mergeSort_of_pairwise (pairwise_edits ps 0)]
  have hzero : ((0 : Nat) : Int) = 0 := rfl
  rw [← hzero, h]
  cases target ps <;> rfl

end Part
end Argot
