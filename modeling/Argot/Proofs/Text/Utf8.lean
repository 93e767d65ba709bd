import Argot.Text.Utf8
import Mathlib.Tactic.NormNum
/-!
# Utf8 — what encoding gives, decoding takes back

Decoding undoes encoding (`decode_encode`), also at the front of further bytes.  Encoding undoes decoding
(`encode_of_decodeFrom`), since only the shortest bytes of a character are read.  Where bytes are cut before a byte that
continues no character, the parts decode by themselves (`decodeFrom_split`), so characters can be put in there.
-/
namespace Argot
namespace Text

/-! ## The bytes of a character -/

theorem leadByte?_of_two {b : UInt8} (h : 0xC2 ≤ b.toNat) (h' : b.toNat < 0xE0) :
    leadByte? b = some (1, 0x80, 0xBF) := by
  have hlow : ¬b < 0xC2 := by
    simp only [UInt8.lt_iff_toNat_lt, UInt8.reduceToNat]
    omega
  have hhigh : b < 0xE0 := by
    simp only [UInt8.lt_iff_toNat_lt, UInt8.reduceToNat]
    omega
  rw [leadByte?, if_neg hlow, if_pos hhigh]

theorem leadByte?_of_three {b : UInt8} (h : 0xE0 ≤ b.toNat) (h' : b.toNat < 0xF0) :
    leadByte? b = some (2, if b.toNat = 0xE0 then 0xA0 else 0x80, if b.toNat = 0xED then 0x9F else 0xBF) := by
  have hlow : ¬b < 0xC2 := by
    simp only [UInt8.lt_iff_toNat_lt, UInt8.reduceToNat]
    omega
  have hhigh : ¬b < 0xE0 := by
    simp only [UInt8.lt_iff_toNat_lt, UInt8.reduceToNat]
    omega
  have hlast : b < 0xF0 := by
    simp only [UInt8.lt_iff_toNat_lt, UInt8.reduceToNat]
    omega
  have hE0 : b = 0xE0 ↔ b.toNat = 0xE0 := by
    rw [← UInt8.toNat_inj]
    rfl
  have hED : b = 0xED ↔ b.toNat = 0xED := by
    rw [← UInt8.toNat_inj]
    rfl
  rw [leadByte?, if_neg hlow, if_neg hhigh]
  simp only [hE0, hED, hlast, if_true]
  split
  · rename_i h0
    simp [h0]
  · split <;> rfl

theorem leadByte?_of_four {b : UInt8} (h : 0xF0 ≤ b.toNat) (h' : b.toNat ≤ 0xF4) :
    leadByte? b = some (3, if b.toNat = 0xF0 then 0x90 else 0x80, if b.toNat = 0xF4 then 0x8F else 0xBF) := by
  have hlow : ¬b < 0xC2 := by
    simp only [UInt8.lt_iff_toNat_lt, UInt8.reduceToNat]
    omega
  have hhigh : ¬b < 0xE0 := by
    simp only [UInt8.lt_iff_toNat_lt, UInt8.reduceToNat]
    omega
  have hlast : ¬b < 0xF0 := by
    simp only [UInt8.lt_iff_toNat_lt, UInt8.reduceToNat]
    omega
  have hE0 : ¬b = 0xE0 := by
    rintro rfl
    exact absurd h (by decide)
  have hED : ¬b = 0xED := by
    rintro rfl
    exact absurd h (by decide)
  have hF0 : b = 0xF0 ↔ b.toNat = 0xF0 := by
    rw [← UInt8.toNat_inj]
    rfl
  have hF4 : b = 0xF4 ↔ b.toNat = 0xF4 := by
    rw [← UInt8.toNat_inj]
    rfl
  have hltF4 : b < 0xF4 ↔ b.toNat ≠ 0xF4 := by
    simp only [UInt8.lt_iff_toNat_lt, UInt8.reduceToNat]
    omega
  rw [leadByte?, if_neg hlow, if_neg hhigh, if_neg hE0, if_neg hED, if_neg hlast]
  simp only [hF0, hltF4, hF4]
  split
  · rename_i h0
    simp [h0]
  · split <;> simp_all

theorem leadByte?_bounds {b low high : UInt8} {due : Nat} (h : leadByte? b = some (due, low, high)) :
    0x80 ≤ low.toNat ∧ high.toNat ≤ 0xBF := by
  unfold leadByte? at h
  split_ifs at h <;> cases h <;> decide

theorem readContinuations_cons {due : Nat} {low high b : UInt8} {value read : Nat} {rest : List UInt8}
    (h : low.toNat ≤ b.toNat) (h' : b.toNat ≤ high.toNat) :
    readContinuations (due + 1) low high value read (b :: rest) =
      readContinuations due 0x80 0xBF (value * 64 + b.toNat % 64) (read + 1) rest := by
  have hb : (decide (low ≤ b) && decide (b ≤ high)) = true := by simp [UInt8.le_iff_toNat_le, h, h']
  rw [readContinuations, if_pos hb]
  rfl

theorem not_lt_0x80 {b : UInt8} (h : 0x80 ≤ b.toNat) : ¬b < 0x80 := by
  simp only [UInt8.lt_iff_toNat_lt, UInt8.reduceToNat]
  omega

section
variable {v : Nat} (tail : List UInt8)

theorem decodeChar_one (h : v < 0x80) : decodeChar (UInt8.ofNat v) tail = .ok (Char.ofNat v, 0) := by
  have hv : (UInt8.ofNat v).toNat = v := by simp; omega
  have hlt : UInt8.ofNat v < 0x80 := by
    simp only [UInt8.lt_iff_toNat_lt, UInt8.reduceToNat]
    omega
  rw [decodeChar, if_pos hlt, hv]

theorem decodeChar_two (h : 0x80 ≤ v) (h' : v < 0x800) :
    decodeChar (UInt8.ofNat (v / 64 % 0x20 + 0xC0)) (UInt8.ofNat (v % 0x40 + 0x80) :: tail) = .ok (Char.ofNat v, 1) := by
  have h1 : (UInt8.ofNat (v / 64 % 0x20 + 0xC0)).toNat = v / 64 % 0x20 + 0xC0 := by simp; omega
  have h2 : (UInt8.ofNat (v % 0x40 + 0x80)).toNat = v % 0x40 + 0x80 := by simp; omega
  rw [decodeChar, if_neg (not_lt_0x80 (by omega)), leadByte?_of_two (by omega) (by omega)]
  dsimp only
  rw [readContinuations_cons (by rw [h2]; simp) (by rw [h2]; simp; omega), readContinuations, leadBits, h1, h2]
  have hbits : Nat.pow 2 (6 - 1) = 32 := rfl
  have hvalue : (v / 64 % 32 + 192) % 32 * 64 + (v % 64 + 128) % 64 = v := by omega
  rw [hbits, hvalue]
  rfl

theorem decodeChar_three (h : 0x800 ≤ v) (h' : v < 0x10000) (hgap : v < 0xD800 ∨ 0xDFFF < v) :
    decodeChar (UInt8.ofNat (v / 4096 % 0x10 + 0xE0))
      (UInt8.ofNat (v / 64 % 0x40 + 0x80) :: UInt8.ofNat (v % 0x40 + 0x80) :: tail) = .ok (Char.ofNat v, 2) := by
  have h1 : (UInt8.ofNat (v / 4096 % 0x10 + 0xE0)).toNat = v / 4096 % 0x10 + 0xE0 := by simp; omega
  have h2 : (UInt8.ofNat (v / 64 % 0x40 + 0x80)).toNat = v / 64 % 0x40 + 0x80 := by simp; omega
  have h3 : (UInt8.ofNat (v % 0x40 + 0x80)).toNat = v % 0x40 + 0x80 := by simp; omega
  rw [decodeChar, if_neg (not_lt_0x80 (by omega)), leadByte?_of_three (by omega) (by omega)]
  dsimp only
  rw [readContinuations_cons (by rw [h1, h2]; split <;> simp; omega) (by rw [h1, h2]; split <;> simp <;> omega),
    readContinuations_cons (by rw [h3]; simp) (by rw [h3]; simp; omega), readContinuations, leadBits, h1, h2, h3]
  have hbits : Nat.pow 2 (6 - 2) = 16 := rfl
  have hvalue : ((v / 4096 % 16 + 224) % 16 * 64 + (v / 64 % 64 + 128) % 64) * 64 + (v % 64 + 128) % 64 = v := by
    omega
  rw [hbits, hvalue]
  rfl

theorem decodeChar_four (h : 0x10000 ≤ v) (h' : v < 0x110000) :
    decodeChar (UInt8.ofNat (v / 262144 % 0x08 + 0xF0))
      (UInt8.ofNat (v / 4096 % 0x40 + 0x80) :: UInt8.ofNat (v / 64 % 0x40 + 0x80) :: UInt8.ofNat (v % 0x40 + 0x80) :: tail)
      = .ok (Char.ofNat v, 3) := by
  have h1 : (UInt8.ofNat (v / 262144 % 0x08 + 0xF0)).toNat = v / 262144 % 0x08 + 0xF0 := by simp; omega
  have h2 : (UInt8.ofNat (v / 4096 % 0x40 + 0x80)).toNat = v / 4096 % 0x40 + 0x80 := by simp; omega
  have h3 : (UInt8.ofNat (v / 64 % 0x40 + 0x80)).toNat = v / 64 % 0x40 + 0x80 := by simp; omega
  have h4 : (UInt8.ofNat (v % 0x40 + 0x80)).toNat = v % 0x40 + 0x80 := by simp; omega
  rw [decodeChar, if_neg (not_lt_0x80 (by omega)), leadByte?_of_four (by omega) (by omega)]
  dsimp only
  rw [readContinuations_cons (by rw [h1, h2]; split <;> simp; omega) (by rw [h1, h2]; split <;> simp <;> omega),
    readContinuations_cons (by rw [h3]; simp) (by rw [h3]; simp; omega),
    readContinuations_cons (by rw [h4]; simp) (by rw [h4]; simp; omega), readContinuations, leadBits, h1, h2, h3, h4]
  have hbits : Nat.pow 2 (6 - 3) = 8 := rfl
  have hvalue : (((v / 262144 % 8 + 240) % 8 * 64 + (v / 4096 % 64 + 128) % 64) * 64 + (v / 64 % 64 + 128) % 64)
      * 64 + (v % 64 + 128) % 64 = v := by
    omega
  rw [hbits, hvalue]
  rfl

end

/-- **The bytes of a character decode to it**, whatever follows them. -/
theorem decodeChar_encode (c : Char) (tail : List UInt8) : ∃ b bs,
    String.utf8EncodeChar c = b :: bs ∧ decodeChar b (bs ++ tail) = .ok (c, bs.length) := by
  have hvalid := c.valid
  simp only [UInt32.isValidChar, Nat.isValidChar] at hvalid
  have hc : Char.ofNat c.val.toNat = c := Char.ofNat_toNat c
  unfold String.utf8EncodeChar
  dsimp only
  generalize c.val.toNat = v at *
  rw [← hc]
  split
  · exact ⟨_, _, rfl, decodeChar_one _ (by omega)⟩
  · split
    · exact ⟨_, _, rfl, decodeChar_two _ (by omega) (by omega)⟩
    · split
      · exact ⟨_, _, rfl, decodeChar_three _ (by omega) (by omega) (by omega)⟩
      · exact ⟨_, _, rfl, decodeChar_four _ (by omega) (by omega)⟩

/-! ## The bytes of a text -/

@[simp] theorem encode_nil : encode [] = [] := rfl

@[simp] theorem encode_cons (c : Char) (cs : List Char) : encode (c :: cs) = String.utf8EncodeChar c ++ encode cs := rfl

@[simp] theorem encode_append (cs ds : List Char) : encode (cs ++ ds) = encode cs ++ encode ds :=
  List.flatMap_append

theorem encode_eq_nil {cs : List Char} (h : (encode cs).length = 0) : cs = [] := by
  cases cs with
  | nil => rfl
  | cons c cs =>
    obtain ⟨b, bs, hb, -⟩ := decodeChar_encode c []
    rw [encode_cons, hb] at h
    simp at h

/-- Of two beginnings of a text, the one with fewer bytes begins the other. -/
theorem exists_append_of_encode_length_le {a b x y : List Char} (h : a ++ x = b ++ y)
    (hlen : (encode a).length ≤ (encode b).length) : ∃ gap, b = a ++ gap ∧ x = gap ++ y := by
  rcases List.append_eq_append_iff.1 h with ⟨gap, hb, hx⟩ | ⟨gap, ha, hy⟩
  · exact ⟨gap, hb, hx⟩
  · rw [ha, encode_append, List.length_append] at hlen
    have hgap : gap = [] := encode_eq_nil (by omega)
    subst hgap
    exact ⟨[], by simpa using ha.symm, by simpa using hy.symm⟩

theorem eq_of_encode_length_eq {a b x y : List Char} (h : a ++ x = b ++ y) (hlen : (encode a).length = (encode b).length) :
    a = b ∧ x = y := by
  obtain ⟨gap, hb, hx⟩ := exists_append_of_encode_length_le h (Nat.le_of_eq hlen)
  rw [hb, encode_append, List.length_append] at hlen
  obtain rfl : gap = [] := encode_eq_nil (by omega)
  exact ⟨by simpa using hb.symm, hx⟩

/-- What stands between two positions of a text is settled by them. -/
theorem eq_of_encode_place {a w x b v y : List Char} (h : a ++ w ++ x = b ++ v ++ y)
    (hstart : (encode a).length = (encode b).length) (hstop : (encode (a ++ w)).length = (encode (b ++ v)).length) :
    a = b ∧ w = v ∧ x = y := by
  obtain ⟨hfront, rfl⟩ := eq_of_encode_length_eq h hstop
  obtain ⟨rfl, rfl⟩ := eq_of_encode_length_eq hfront hstart
  exact ⟨rfl, rfl, rfl⟩

/-- **The bytes of a text decode to it**, and what follows them is decoded after it. -/
theorem decodeFrom_encode_append (rest : List UInt8) : ∀ (cs : List Char) (p : Nat),
    decodeFrom p (encode cs ++ rest) = (decodeFrom (p + (encode cs).length) rest).map (cs ++ ·)
  | [], p => by
    cases h : decodeFrom p rest <;> simp [h, Except.map]
  | c :: cs, p => by
    obtain ⟨b, bs, hb, hc⟩ := decodeChar_encode c (encode cs ++ rest)
    rw [encode_cons, hb, List.append_assoc, List.cons_append, decodeFrom, hc]
    dsimp only
    rw [List.drop_left, decodeFrom_encode_append rest cs]
    have hp : p + 1 + bs.length + (encode cs).length = p + (b :: bs ++ encode cs).length := by
      simp only [List.length_append, List.length_cons]
      omega
    rw [hp]
    cases decodeFrom (p + (b :: bs ++ encode cs).length) rest <;> rfl

theorem decodeFrom_encode_append_eq_ok_iff {cs ds : List Char} {rest : List UInt8} {p : Nat} :
    decodeFrom p (encode cs ++ rest) = .ok ds ↔ ∃ es, decodeFrom (p + (encode cs).length) rest = .ok es ∧ ds = cs ++ es := by
  rw [decodeFrom_encode_append]
  cases decodeFrom (p + (encode cs).length) rest <;> simp [Except.map, eq_comm]

theorem decode_encode (cs : List Char) : decode (encode cs) = .ok cs := by
  have h := decodeFrom_encode_append [] cs 0
  rw [List.append_nil] at h
  rw [decode, h, decodeFrom]
  simp [Except.map]

theorem decodeString_encode (cs : List Char) : decodeString (encode cs) = .ok (String.ofList cs) := by
  rw [decodeString, decode_encode]
  rfl

/-! ## Cutting bytes between characters -/

/-- Bytes that can follow a whole character: nothing, or a byte that continues none. -/
def StartsChar (bytes : List UInt8) : Prop :=
  ∀ b ∈ bytes.head?, isContinuation b = false

theorem startsChar_nil : StartsChar [] := by
  simp [StartsChar]

theorem StartsChar.append {xs ys : List UInt8} (hx : StartsChar xs) (hy : StartsChar ys) : StartsChar (xs ++ ys) := by
  cases xs with
  | nil => exact hy
  | cons b xs => exact hx

theorem startsChar_encode (cs : List Char) : StartsChar (encode cs) := by
  cases cs with
  | nil => exact startsChar_nil
  | cons c cs =>
    intro b hb
    obtain ⟨b', bs, hb', hc⟩ := decodeChar_encode c []
    rw [encode_cons, hb'] at hb
    obtain rfl : b' = b := by simpa using hb
    cases hcont : isContinuation b' with
    | false => rfl
    | true =>
      -- a continuation byte begins no character
      simp only [isContinuation, Bool.and_eq_true, decide_eq_true_eq, UInt8.le_iff_toNat_le, UInt8.reduceToNat] at hcont
      have hlow : b' < 0xC2 := by
        simp only [UInt8.lt_iff_toNat_lt, UInt8.reduceToNat]
        omega
      rw [decodeChar, if_neg (not_lt_0x80 hcont.1), leadByte?, if_pos hlow] at hc
      cases hc

theorem readContinuations_split {ys : List UInt8} (hy : StartsChar ys) : ∀ {due : Nat} {low high : UInt8}
    {value read w : Nat} {xs : List UInt8}, 0x80 ≤ low.toNat → high.toNat ≤ 0xBF →
    readContinuations due low high value read (xs ++ ys) = .ok w →
    due ≤ xs.length ∧ ∀ zs, readContinuations due low high value read (xs ++ zs) = .ok w
  | 0, _, _, _, _, _, _, _, _, h => ⟨Nat.zero_le _, fun _ => h⟩
  | due + 1, low, high, value, read, w, [], hlow, hhigh, h => by
    cases ys with
    | nil => cases h
    | cons y ys =>
      have hyc := hy y (by simp)
      rw [List.nil_append, readContinuations] at h
      split at h
      · rename_i hb
        simp only [Bool.and_eq_true, decide_eq_true_eq, UInt8.le_iff_toNat_le] at hb
        simp only [isContinuation, Bool.and_eq_false_iff, decide_eq_false_iff_not, UInt8.le_iff_toNat_le,
          UInt8.reduceToNat] at hyc
        omega
      · cases h
  | due + 1, low, high, value, read, w, x :: xs, hlow, hhigh, h => by
    rw [List.cons_append, readContinuations] at h
    split at h
    · rename_i hb
      obtain ⟨hdue, hall⟩ := readContinuations_split hy (by decide) (by decide) h
      refine ⟨by simpa using hdue, fun zs => ?_⟩
      rw [List.cons_append, readContinuations, if_pos hb]
      exact hall zs
    · cases h

theorem decodeChar_split {b : UInt8} {xs ys : List UInt8} {c : Char} {used : Nat} (hy : StartsChar ys)
    (h : decodeChar b (xs ++ ys) = .ok (c, used)) :
    used ≤ xs.length ∧ ∀ zs, decodeChar b (xs ++ zs) = .ok (c, used) := by
  unfold decodeChar at h ⊢
  split at h
  · rename_i hb
    cases h
    exact ⟨Nat.zero_le _, fun zs => by rw [if_pos hb]⟩
  · rename_i hb
    cases hlead : leadByte? b with
    | none =>
      rw [hlead] at h
      cases h
    | some l =>
      obtain ⟨due, low, high⟩ := l
      rw [hlead] at h
      dsimp only at h
      cases hread : readContinuations due low high (leadBits b due) 1 (xs ++ ys) with
      | error e =>
        rw [hread] at h
        cases h
      | ok w =>
        rw [hread] at h
        cases h
        obtain ⟨hlow, hhigh⟩ := leadByte?_bounds hlead
        obtain ⟨hused, hall⟩ := readContinuations_split hy hlow hhigh hread
        refine ⟨hused, fun zs => ?_⟩
        rw [if_neg hb]
        dsimp only
        rw [hall zs]
        rfl

/-- **Bytes that decode can be cut where a character starts**: both parts decode, and the first one does before any other
bytes too. -/
theorem decodeFrom_split {ys : List UInt8} (hy : StartsChar ys) : ∀ (n : Nat) {xs : List UInt8} {p : Nat}
    {cs : List Char}, xs.length ≤ n → decodeFrom p (xs ++ ys) = .ok cs →
    ∃ ds es, cs = ds ++ es ∧ decodeFrom (p + xs.length) ys = .ok es ∧
      ∀ zs, decodeFrom p (xs ++ zs) = (decodeFrom (p + xs.length) zs).map (ds ++ ·)
  | _, [], p, cs, _, h => by
    refine ⟨[], cs, rfl, h, fun zs => ?_⟩
    rw [List.nil_append, List.length_nil, Nat.add_zero]
    cases decodeFrom p zs <;> rfl
  | 0, _ :: _, _, _, hn, _ => absurd hn (by simp)
  | n + 1, x :: xs, p, cs, hn, h => by
    rw [List.cons_append, decodeFrom] at h
    cases hchar : decodeChar x (xs ++ ys) with
    | error e =>
      rw [hchar] at h
      cases h
    | ok r =>
      obtain ⟨c, used⟩ := r
      rw [hchar] at h
      dsimp only at h
      obtain ⟨hused, hall⟩ := decodeChar_split hy hchar
      rw [List.drop_append_of_le_length hused] at h
      cases hrest : decodeFrom (p + 1 + used) (xs.drop used ++ ys) with
      | error e =>
        rw [hrest] at h
        cases h
      | ok cs' =>
        rw [hrest] at h
        cases h
        have hlen : (xs.drop used).length ≤ n := by
          rw [List.length_cons] at hn
          rw [List.length_drop]
          omega
        obtain ⟨ds, es, rfl, hes, hzs⟩ := decodeFrom_split hy n hlen hrest
        have hp : p + 1 + used + (xs.drop used).length = p + (x :: xs).length := by
          rw [List.length_drop, List.length_cons]
          omega
        rw [hp] at hes hzs
        refine ⟨c :: ds, es, rfl, hes, fun zs => ?_⟩
        rw [List.cons_append, decodeFrom, hall zs]
        dsimp only
        rw [List.drop_append_of_le_length hused, hzs zs]
        cases decodeFrom (p + (x :: xs).length) zs <;> rfl

/-- Where decoding begins only shows in its errors. -/
theorem decodeFrom_ok_of_ok : ∀ (n : Nat) {bytes : List UInt8} {p q : Nat} {cs : List Char}, bytes.length ≤ n →
    decodeFrom p bytes = .ok cs → decodeFrom q bytes = .ok cs
  | _, [], _, _, _, _, h => by
    rw [decodeFrom] at h ⊢
    exact h
  | 0, _ :: _, _, _, _, hn, _ => absurd hn (by simp)
  | n + 1, b :: rest, p, q, cs, hn, h => by
    rw [decodeFrom] at h ⊢
    cases hchar : decodeChar b rest with
    | error e =>
      rw [hchar] at h
      cases h
    | ok r =>
      obtain ⟨c, used⟩ := r
      rw [hchar] at h
      dsimp only at h ⊢
      have hlen : (rest.drop used).length ≤ n := by
        rw [List.length_cons] at hn
        rw [List.length_drop]
        omega
      cases hrest : decodeFrom (p + 1 + used) (rest.drop used) with
      | error e =>
        rw [hrest] at h
        cases h
      | ok cs' =>
        rw [decodeFrom_ok_of_ok n hlen hrest, ← h, hrest]

/-! ## The bytes of what was decoded -/

theorem readContinuations_succ_eq_ok {due : Nat} {low high : UInt8} {value read v : Nat} {bytes : List UInt8}
    (h : readContinuations (due + 1) low high value read bytes = .ok v) :
    ∃ b rest, bytes = b :: rest ∧ low.toNat ≤ b.toNat ∧ b.toNat ≤ high.toNat ∧
      readContinuations due 0x80 0xBF (value * 64 + b.toNat % 64) (read + 1) rest = .ok v := by
  cases bytes with
  | nil => cases h
  | cons b rest =>
    rw [readContinuations] at h
    split at h
    · rename_i hb
      rw [Bool.and_eq_true, decide_eq_true_eq, decide_eq_true_eq, UInt8.le_iff_toNat_le, UInt8.le_iff_toNat_le] at hb
      exact ⟨b, rest, rfl, hb.1, hb.2, h⟩
    · cases h

/-- The first byte of a character of several bytes. -/
theorem leadByte?_cases {b low high : UInt8} {due : Nat} (h : leadByte? b = some (due, low, high)) :
    (due = 1 ∧ 0xC2 ≤ b.toNat ∧ b.toNat < 0xE0 ∧ low = 0x80 ∧ high = 0xBF) ∨
    (due = 2 ∧ 0xE0 ≤ b.toNat ∧ b.toNat < 0xF0 ∧ low = (if b.toNat = 0xE0 then 0xA0 else 0x80) ∧
      high = if b.toNat = 0xED then 0x9F else 0xBF) ∨
    (due = 3 ∧ 0xF0 ≤ b.toNat ∧ b.toNat ≤ 0xF4 ∧ low = (if b.toNat = 0xF0 then 0x90 else 0x80) ∧
      high = if b.toNat = 0xF4 then 0x8F else 0xBF) := by
  by_cases htwo : 0xC2 ≤ b.toNat ∧ b.toNat < 0xE0
  · rw [leadByte?_of_two htwo.1 htwo.2] at h
    cases h
    exact .inl ⟨rfl, htwo.1, htwo.2, rfl, rfl⟩
  by_cases hthree : 0xE0 ≤ b.toNat ∧ b.toNat < 0xF0
  · rw [leadByte?_of_three hthree.1 hthree.2] at h
    cases h
    exact .inr (.inl ⟨rfl, hthree.1, hthree.2, rfl, rfl⟩)
  by_cases hfour : 0xF0 ≤ b.toNat ∧ b.toNat ≤ 0xF4
  · rw [leadByte?_of_four hfour.1 hfour.2] at h
    cases h
    exact .inr (.inr ⟨rfl, hfour.1, hfour.2, rfl, rfl⟩)
  -- no other byte begins a character of several bytes
  have hnone : leadByte? b = none := by
    unfold leadByte?
    simp only [UInt8.lt_iff_toNat_lt, ← UInt8.toNat_inj, UInt8.reduceToNat]
    split_ifs <;> first | rfl | omega
  rw [hnone] at h
  cases h

theorem ofNat_of_toNat {b : UInt8} {v : Nat} (h : v = b.toNat) : UInt8.ofNat v = b := by
  rw [h, UInt8.ofNat_toNat]

theorem utf8EncodeChar_ofNat {v : Nat} (hv : v.isValidChar) : String.utf8EncodeChar (Char.ofNat v) =
    if v ≤ 127 then [UInt8.ofNat v]
    else if v ≤ 2047 then [UInt8.ofNat (v / 64 % 32 + 192), UInt8.ofNat (v % 64 + 128)]
    else if v ≤ 65535 then
      [UInt8.ofNat (v / 4096 % 16 + 224), UInt8.ofNat (v / 64 % 64 + 128), UInt8.ofNat (v % 64 + 128)]
    else [UInt8.ofNat (v / 262144 % 8 + 240), UInt8.ofNat (v / 4096 % 64 + 128), UInt8.ofNat (v / 64 % 64 + 128),
      UInt8.ofNat (v % 64 + 128)] := by
  have hval : (Char.ofNat v).val.toNat = v := by
    rw [Char.ofNat, dif_pos hv]
    rfl
  unfold String.utf8EncodeChar
  rw [hval]

theorem encode_of_two {b : UInt8} {rest : List UInt8} {v : Nat} (hlow : 0xC2 ≤ b.toNat) (hhigh : b.toNat < 0xE0)
    (h : readContinuations 1 0x80 0xBF (leadBits b 1) 1 rest = .ok v) :
    b :: rest = String.utf8EncodeChar (Char.ofNat v) ++ rest.drop 1 := by
  obtain ⟨b₁, rest, rfl, h₁, h₁', hread⟩ := readContinuations_succ_eq_ok h
  obtain rfl := Except.ok.inj hread
  have hbits : leadBits b 1 = b.toNat % 32 := rfl
  simp only [UInt8.reduceToNat] at h₁ h₁'
  rw [hbits, utf8EncodeChar_ofNat (.inl (by omega)), if_neg (by omega), if_pos (by omega),
    ofNat_of_toNat (show (_ : Nat) = b.toNat by omega), ofNat_of_toNat (show (_ : Nat) = b₁.toNat by omega)]
  rfl

theorem encode_of_three {b : UInt8} {rest : List UInt8} {v : Nat} (hlow : 0xE0 ≤ b.toNat) (hhigh : b.toNat < 0xF0)
    (h : readContinuations 2 (if b.toNat = 0xE0 then 0xA0 else 0x80) (if b.toNat = 0xED then 0x9F else 0xBF)
      (leadBits b 2) 1 rest = .ok v) :
    b :: rest = String.utf8EncodeChar (Char.ofNat v) ++ rest.drop 2 := by
  obtain ⟨b₁, rest, rfl, h₁, h₁', hread⟩ := readContinuations_succ_eq_ok h
  obtain ⟨b₂, rest, rfl, h₂, h₂', hread⟩ := readContinuations_succ_eq_ok hread
  obtain rfl := Except.ok.inj hread
  have hbits : leadBits b 2 = b.toNat % 16 := rfl
  simp only [UInt8.reduceToNat] at h₂ h₂'
  have hbounds : 0x80 ≤ b₁.toNat ∧ b₁.toNat ≤ 0xBF ∧ (b.toNat = 0xE0 → 0xA0 ≤ b₁.toNat) ∧
      (b.toNat = 0xED → b₁.toNat ≤ 0x9F) := by
    split_ifs at h₁ h₁' <;> simp only [UInt8.reduceToNat] at h₁ h₁' <;> omega
  have hvalid : ((b.toNat % 16 * 64 + b₁.toNat % 64) * 64 + b₂.toNat % 64).isValidChar := by
    rw [Nat.isValidChar]
    omega
  rw [hbits, utf8EncodeChar_ofNat hvalid, if_neg (by omega), if_neg (by omega), if_pos (by omega),
    ofNat_of_toNat (show (_ : Nat) = b.toNat by omega), ofNat_of_toNat (show (_ : Nat) = b₁.toNat by omega),
    ofNat_of_toNat (show (_ : Nat) = b₂.toNat by omega)]
  rfl

theorem encode_of_four {b : UInt8} {rest : List UInt8} {v : Nat} (hlow : 0xF0 ≤ b.toNat) (hhigh : b.toNat ≤ 0xF4)
    (h : readContinuations 3 (if b.toNat = 0xF0 then 0x90 else 0x80) (if b.toNat = 0xF4 then 0x8F else 0xBF)
      (leadBits b 3) 1 rest = .ok v) :
    b :: rest = String.utf8EncodeChar (Char.ofNat v) ++ rest.drop 3 := by
  obtain ⟨b₁, rest, rfl, h₁, h₁', hread⟩ := readContinuations_succ_eq_ok h
  obtain ⟨b₂, rest, rfl, h₂, h₂', hread⟩ := readContinuations_succ_eq_ok hread
  obtain ⟨b₃, rest, rfl, h₃, h₃', hread⟩ := readContinuations_succ_eq_ok hread
  obtain rfl := Except.ok.inj hread
  have hbits : leadBits b 3 = b.toNat % 8 := rfl
  simp only [UInt8.reduceToNat] at h₂ h₂' h₃ h₃'
  have hbounds : 0x80 ≤ b₁.toNat ∧ b₁.toNat ≤ 0xBF ∧ (b.toNat = 0xF0 → 0x90 ≤ b₁.toNat) ∧
      (b.toNat = 0xF4 → b₁.toNat ≤ 0x8F) := by
    split_ifs at h₁ h₁' <;> simp only [UInt8.reduceToNat] at h₁ h₁' <;> omega
  have hvalid : (((b.toNat % 8 * 64 + b₁.toNat % 64) * 64 + b₂.toNat % 64) * 64 + b₃.toNat % 64).isValidChar := by
    rw [Nat.isValidChar]
    omega
  rw [hbits, utf8EncodeChar_ofNat hvalid, if_neg (by omega), if_neg (by omega), if_neg (by omega),
    ofNat_of_toNat (show (_ : Nat) = b.toNat by omega), ofNat_of_toNat (show (_ : Nat) = b₁.toNat by omega),
    ofNat_of_toNat (show (_ : Nat) = b₂.toNat by omega), ofNat_of_toNat (show (_ : Nat) = b₃.toNat by omega)]
  rfl

/-- **A character that is read has the bytes it was read from.** -/
theorem encode_of_decodeChar {b : UInt8} {rest : List UInt8} {c : Char} {used : Nat}
    (h : decodeChar b rest = .ok (c, used)) : b :: rest = String.utf8EncodeChar c ++ rest.drop used := by
  unfold decodeChar at h
  split at h
  · rename_i hb
    cases h
    simp only [UInt8.lt_iff_toNat_lt, UInt8.reduceToNat] at hb
    rw [utf8EncodeChar_ofNat (.inl (by omega)), if_pos (by omega), UInt8.ofNat_toNat]
    rfl
  · cases hlead : leadByte? b with
    | none =>
      rw [hlead] at h
      cases h
    | some lead =>
      obtain ⟨due, low, high⟩ := lead
      rw [hlead] at h
      dsimp only at h
      cases hread : readContinuations due low high (leadBits b due) 1 rest with
      | error e =>
        rw [hread] at h
        cases h
      | ok v =>
        rw [hread] at h
        cases h
        rcases leadByte?_cases hlead with ⟨rfl, hlow, hhigh, rfl, rfl⟩ | ⟨rfl, hlow, hhigh, rfl, rfl⟩ |
          ⟨rfl, hlow, hhigh, rfl, rfl⟩
        · exact encode_of_two hlow hhigh hread
        · exact encode_of_three hlow hhigh hread
        · exact encode_of_four hlow hhigh hread

/-- **Encoding undoes decoding**: the bytes of what was decoded are those that were. -/
theorem encode_of_decodeFrom : ∀ (n : Nat) {bytes : List UInt8} {p : Nat} {cs : List Char}, bytes.length ≤ n →
    decodeFrom p bytes = .ok cs → encode cs = bytes
  | _, [], _, _, _, h => by
    rw [decodeFrom] at h
    cases h
    rfl
  | 0, _ :: _, _, _, hn, _ => absurd hn (by simp)
  | n + 1, b :: rest, p, cs, hn, h => by
    rw [decodeFrom] at h
    cases hchar : decodeChar b rest with
    | error e =>
      rw [hchar] at h
      cases h
    | ok r =>
      obtain ⟨c, used⟩ := r
      rw [hchar] at h
      dsimp only at h
      have hlen : (rest.drop used).length ≤ n := by
        rw [List.length_cons] at hn
        rw [List.length_drop]
        omega
      cases hrest : decodeFrom (p + 1 + used) (rest.drop used) with
      | error e =>
        rw [hrest] at h
        cases h
      | ok cs' =>
        rw [hrest] at h
        cases h
        rw [encode_cons, encode_of_decodeFrom n hlen hrest, ← encode_of_decodeChar hchar]

/-- What encodes a text and holds what encodes a part is cut there into what encodes texts. -/
theorem exists_of_encode_eq {cs w : List Char} {before after : List UInt8} (hw : w ≠ [])
    (h : encode cs = before ++ (encode w ++ after)) :
    ∃ pre post, cs = pre ++ w ++ post ∧ before = encode pre ∧ after = encode post := by
  have hstarts : StartsChar (encode w ++ after) := by
    intro b hb
    cases hbytes : encode w with
    | nil => exact absurd (encode_eq_nil (by rw [hbytes]; rfl)) hw
    | cons b' bs =>
      rw [hbytes] at hb
      exact startsChar_encode w b (by rw [hbytes]; exact hb)
  have hdecode : decodeFrom 0 (before ++ (encode w ++ after)) = .ok cs := h ▸ decode_encode cs
  obtain ⟨pre, rest, rfl, hrest, -⟩ := decodeFrom_split hstarts _ (Nat.le_refl _) hdecode
  obtain ⟨post, hpost, rfl⟩ := decodeFrom_encode_append_eq_ok_iff.1 hrest
  have hafter := encode_of_decodeFrom _ (Nat.le_refl _) hpost
  refine ⟨pre, post, (List.append_assoc _ _ _).symm, ?_, hafter.symm⟩
  rw [encode_append, encode_append, hafter] at h
  exact (List.append_cancel_right h).symm

theorem bytesOf_of_decodeString {bytes : List UInt8} {s : String} (h : decodeString bytes = .ok s) :
    bytesOf s = bytes := by
  unfold decodeString decode at h
  cases hdecode : decodeFrom 0 bytes with
  | error e =>
    rw [hdecode] at h
    cases h
  | ok cs =>
    rw [hdecode] at h
    obtain rfl := Except.ok.inj h
    rw [bytesOf, String.toList_ofList]
    exact encode_of_decodeFrom _ (Nat.le_refl _) hdecode

end Text
end Argot
