import Argot.Text.Spelling
/-!
# Spelling — spellings in a row

What two spellings are together is a text just if both of them are (`text_of_append_text`).  Spellings in a row are joined
to one text if each of them is a text (`exists_joined_iff`).
-/
namespace Argot
namespace Spelling

theorem text_append (a b : String) : Spelling.text a ++ Spelling.text b = .text (a ++ b) := rfl

theorem text_of_bytes_ok {s : Spelling} {bytes : List UInt8} (h : s.bytes = .ok bytes) : ∃ text, s = .text text := by
  cases s with
  | text text => exact ⟨text, rfl⟩
  | broken => cases h

theorem text_of_append_text {a b : Spelling} {s : String} (h : a ++ b = .text s) :
    (∃ x, a = .text x) ∧ ∃ y, b = .text y := by
  have hpoints : (a ++ b).points.any CodePoint.isHalf = false := by
    rw [h]
    exact CodePoint.any_isHalf_ofChars _
  rw [Spelling.points_append, List.any_append, Bool.or_eq_false_iff] at hpoints
  constructor
  · cases a with
    | text x => exact ⟨x, rfl⟩
    | broken ps hps => exact absurd hps (by rw [Bool.not_eq_true]; exact hpoints.1)
  · cases b with
    | text y => exact ⟨y, rfl⟩
    | broken ps hps => exact absurd hps (by rw [Bool.not_eq_true]; exact hpoints.2)

def IsText (s : Spelling) : Prop :=
  ∃ text, s = .text text

theorem isText_text (s : String) : IsText (.text s) := ⟨s, rfl⟩

/-- The text of spellings in a row; it fails at the first that is no text. -/
def joined : List Spelling → Except EncodeError (List Char)
  | [] => .ok []
  | s :: rest => do
    let text ← s.encodable
    let chars ← joined rest
    return text.toList ++ chars

@[simp] theorem joined_nil : joined [] = .ok [] := rfl

@[simp] theorem joined_text_cons (s : String) (rest : List Spelling) :
    joined (.text s :: rest) = (joined rest).map (s.toList ++ ·) := by
  rw [joined]
  cases joined rest <;> rfl

theorem joined_append : ∀ (ss rest : List Spelling), joined (ss ++ rest) = do
    let first ← joined ss
    let later ← joined rest
    return first ++ later
  | [], rest => by
    rw [List.nil_append, joined]
    cases joined rest <;> rfl
  | s :: ss, rest => by
    rw [List.cons_append, joined, joined, joined_append ss rest]
    cases s.encodable with
    | error e => rfl
    | ok text =>
      cases joined ss with
      | error e => rfl
      | ok first =>
        cases joined rest with
        | error e => rfl
        | ok later =>
          change Except.ok (text.toList ++ (first ++ later)) = Except.ok (text.toList ++ first ++ later)
          rw [List.append_assoc]

theorem joined_append_eq_ok_iff {ss rest : List Spelling} {cs : List Char} : joined (ss ++ rest) = .ok cs ↔
    ∃ first later, joined ss = .ok first ∧ joined rest = .ok later ∧ cs = first ++ later := by
  rw [joined_append]
  cases joined ss with
  | error e => simp [bind, Except.bind]
  | ok first =>
    cases joined rest with
    | error e => simp [bind, Except.bind]
    | ok later => simp [bind, Except.bind, pure, Except.pure, eq_comm]

/-- **Spellings make a text just if each of them is one.** -/
theorem exists_joined_iff : ∀ {ss : List Spelling}, (∃ cs, joined ss = .ok cs) ↔ ∀ s ∈ ss, s.IsText
  | [] => by simp [joined]
  | .text s :: ss => by
    have ih := @exists_joined_iff ss
    simp only [List.mem_cons, forall_eq_or_imp, isText_text, true_and]
    rw [← ih, joined_text_cons]
    cases joined ss <;> simp [Except.map]
  | .broken ps h :: ss => by
    have hjoined : joined (.broken ps h :: ss) = .error ⟨_, _⟩ := rfl
    rw [hjoined]
    simp [IsText]

end Spelling
end Argot
