import Mathlib
import Argot.Conversion.Comment
import Argot.Proofs.Conversion.Splice
import Argot.Proofs.Text.Spelling
/-!
# InTurn — edits applied together and one at a time

Edits are ordered by their bounds, and those with the same bounds keep the order they are given in (`Arranged`).  They
can be applied together just where no edit begins before the end of an earlier one, so that every two of them lie apart,
and where every text can be written.  What comes out is then what applying the edits one at a time gives, from the last
to the first, so that no edit moves the place of another (`applyAll_in_turn`).
-/
namespace Argot
namespace Edit

open Text

variable {a b e : Edit} {edits ordered : List Edit} {cs : List Char}

/-- **An edit of a text**: its bounds are in order and stand between characters. -/
structure Fits (cs : List Char) (e : Edit) : Prop where
  start_nonneg : 0 ≤ e.start
  start_le_stop : e.start ≤ e.stop
  start_boundary : IsBoundary cs e.start.toNat
  stop_boundary : IsBoundary cs e.stop.toNat

def hasBounds (start stop : Int) (e : Edit) : Bool :=
  e.start == start && e.stop == stop

/-- **Edits in the order of their bounds**, those with the same bounds in the order they are given in. -/
structure Arranged (edits ordered : List Edit) : Prop where
  sorted : ordered.Pairwise fun a b => a.start < b.start ∨ a.start = b.start ∧ a.stop ≤ b.stop
  ties : ∀ start stop, ordered.filter (hasBounds start stop) = edits.filter (hasBounds start stop)

/-- No edit begins before the end of an earlier one. -/
def Consecutive (ordered : List Edit) : Prop :=
  ordered.Pairwise fun a b => a.stop ≤ b.start

/-- **Two edits lie apart**: one of them ends before the other begins, or just there. -/
def Apart (a b : Edit) : Prop :=
  a.stop ≤ b.start ∨ b.stop ≤ a.start

/-- The bytes with one edit applied. -/
def apply (e : Edit) (bytes : List UInt8) : Except EncodeError (List UInt8) :=
  e.text.bytes.map fun new => bytes.take e.start.toNat ++ new ++ bytes.drop e.stop.toNat

/-- The bytes with edits applied one at a time, from the last to the first. -/
def applyInTurn (bytes : List UInt8) : List Edit → Except EncodeError (List UInt8)
  | [] => .ok bytes
  | e :: rest => applyInTurn bytes rest >>= e.apply

/-! ## The order of edits -/

theorem before_iff : before a b = true ↔ a.start < b.start ∨ a.start = b.start ∧ a.stop ≤ b.stop := by
  simp [before]

theorem before_trans (a b c : Edit) : before a b = true → before b c = true → before a c = true := by
  rw [before_iff, before_iff, before_iff]
  omega

theorem before_total (a b : Edit) : (before a b || before b a) = true := by
  rw [Bool.or_eq_true, before_iff, before_iff]
  omega

theorem hasBounds_iff {start stop : Int} : hasBounds start stop e = true ↔ e.start = start ∧ e.stop = stop := by
  simp [hasBounds]

/-- **Sorting arranges edits.** -/
theorem arranged_mergeSort (edits : List Edit) : Arranged edits (edits.mergeSort before) where
  sorted := (List.pairwise_mergeSort before_trans before_total edits).imp before_iff.1
  ties start stop := by
    have hsame : (edits.filter (hasBounds start stop)).Pairwise fun a b => before a b = true := by
      refine List.pairwise_of_forall_sublist fun {a b} hab => ?_
      obtain ⟨hstart, hstop⟩ := hasBounds_iff.1 (List.mem_filter.1 (hab.subset List.mem_cons_self)).2
      have hb : b ∈ [a, b] := List.mem_cons_of_mem a List.mem_cons_self
      obtain ⟨hstart', hstop'⟩ := hasBounds_iff.1 (List.mem_filter.1 (hab.subset hb)).2
      rw [before_iff]
      omega
    -- equal edits stay in order, and none is lost
    have hsub := (List.sublist_mergeSort before_trans before_total hsame List.filter_sublist).filter
      (hasBounds start stop)
    have hlen := ((List.mergeSort_perm edits before).filter (hasBounds start stop)).length_eq
    simp only [List.filter_filter, Bool.and_self] at hsub
    exact (hsub.eq_of_length hlen.symm).symm

theorem mem_of_filter_eq {first second : List Edit}
    (h : ∀ start stop, first.filter (hasBounds start stop) = second.filter (hasBounds start stop)) (he : e ∈ first) :
    e ∈ second := by
  have hmem : e ∈ first.filter (hasBounds e.start e.stop) := List.mem_filter.2 ⟨he, hasBounds_iff.2 ⟨rfl, rfl⟩⟩
  exact (List.mem_filter.1 (h _ _ ▸ hmem)).1

theorem Arranged.mem_iff (h : Arranged edits ordered) : e ∈ ordered ↔ e ∈ edits :=
  ⟨mem_of_filter_eq h.ties, mem_of_filter_eq fun start stop => (h.ties start stop).symm⟩

/-- Lists in the order of the bounds are known by their edits with each pair of bounds. -/
theorem eq_of_sorted : ∀ {first second : List Edit},
    (first.Pairwise fun a b => a.start < b.start ∨ a.start = b.start ∧ a.stop ≤ b.stop) →
    (second.Pairwise fun a b => a.start < b.start ∨ a.start = b.start ∧ a.stop ≤ b.stop) →
    (∀ start stop, first.filter (hasBounds start stop) = second.filter (hasBounds start stop)) → first = second
  | [], [], _, _, _ => rfl
  | [], b :: second, _, _, h => (List.not_mem_nil (mem_of_filter_eq (fun s t => (h s t).symm) List.mem_cons_self)).elim
  | a :: first, [], _, _, h => (List.not_mem_nil (mem_of_filter_eq h List.mem_cons_self)).elim
  | a :: first, b :: second, hfirst, hsecond, h => by
    obtain ⟨hfirstHead, hfirstTail⟩ := List.pairwise_cons.1 hfirst
    obtain ⟨hsecondHead, hsecondTail⟩ := List.pairwise_cons.1 hsecond
    -- each of the two heads comes before the other
    have hbounds : a.start = b.start ∧ a.stop = b.stop := by
      rcases List.mem_cons.1 (mem_of_filter_eq h List.mem_cons_self) with rfl | ha
      · exact ⟨rfl, rfl⟩
      rcases List.mem_cons.1 (mem_of_filter_eq (fun s t => (h s t).symm) List.mem_cons_self) with rfl | hb
      · exact ⟨rfl, rfl⟩
      have := hsecondHead a ha
      have := hfirstHead b hb
      omega
    have hsame : ∀ start stop, hasBounds start stop a = hasBounds start stop b := by
      intro start stop
      rw [hasBounds, hasBounds, hbounds.1, hbounds.2]
    have hhead : a = b := by
      have hself := h a.start a.stop
      rw [List.filter_cons_of_pos (hasBounds_iff.2 ⟨rfl, rfl⟩),
        List.filter_cons_of_pos (hsame _ _ ▸ hasBounds_iff.2 ⟨rfl, rfl⟩)] at hself
      exact (List.cons.inj hself).1
    have htail : first = second := eq_of_sorted hfirstTail hsecondTail fun start stop => by
      have hcons := h start stop
      rw [List.filter_cons, List.filter_cons, hsame] at hcons
      split at hcons
      · exact (List.cons.inj hcons).2
      · exact hcons
    rw [hhead, htail]

theorem Arranged.eq_mergeSort (h : Arranged edits ordered) : edits.mergeSort before = ordered :=
  eq_of_sorted (arranged_mergeSort edits).sorted h.sorted fun start stop => by
    rw [(arranged_mergeSort edits).ties, h.ties]

/-! ## Edits that lie apart -/

theorem consecutive_iff_pairwise_apart (hle : ∀ e ∈ ordered, e.start ≤ e.stop)
    (hsorted : ordered.Pairwise fun a b => a.start < b.start ∨ a.start = b.start ∧ a.stop ≤ b.stop) :
    Consecutive ordered ↔ ordered.Pairwise Apart := by
  refine ⟨fun h => h.imp Or.inl, fun h => ?_⟩
  refine (h.and hsorted).imp_of_mem fun {a b} ha hb hab => ?_
  obtain ⟨hapart, hbefore⟩ := hab
  have := hle a ha
  have := hle b hb
  unfold Apart at hapart
  omega

/-- **Arranged edits are in order just if every two of them lie apart**, in whatever order they are given. -/
theorem Arranged.consecutive_iff (h : Arranged edits ordered) (hle : ∀ e ∈ edits, e.start ≤ e.stop) :
    Consecutive ordered ↔ edits.Pairwise Apart := by
  have hperm : ordered.Perm edits := h.eq_mergeSort ▸ List.mergeSort_perm edits before
  have hsymm : ∀ {a b : Edit}, Apart a b → Apart b a := Or.symm
  rw [consecutive_iff_pairwise_apart (fun e he => hle e (h.mem_iff.1 he)) h.sorted, hperm.pairwise_iff hsymm]

/-! ## Applying ordered edits -/

/-- **Where ordered edits are applied, none begins before the end of an earlier one and every text can be written.** -/
theorem consecutive_of_splice {source bytes : List UInt8} : ∀ {ordered : List Edit} {cursor : Int},
    (∀ e ∈ ordered, e.start ≤ e.stop) → splice source cursor ordered = .ok bytes →
    (∀ e ∈ ordered, cursor ≤ e.start) ∧ Consecutive ordered ∧ ∀ e ∈ ordered, e.text.IsText
  | [], _, _, _ => ⟨by simp, .nil, by simp⟩
  | e :: rest, cursor, hle, h => by
    rw [splice] at h
    split at h
    · cases h
    rename_i hcursor
    obtain ⟨new, hnew, h⟩ := Node.bind_eq_ok_iff.1 h
    obtain ⟨tail, htail, -⟩ := Node.bind_eq_ok_iff.1 h
    obtain ⟨hstarts, hconsecutive, htexts⟩ :=
      consecutive_of_splice (fun x hx => hle x (List.mem_cons_of_mem e hx)) htail
    have htext : e.text.IsText := by
      cases hbytes : e.text.bytes with
      | error f =>
        rw [hbytes] at hnew
        cases hnew
      | ok new' => exact Spelling.text_of_bytes_ok hbytes
    have hstop := hle e List.mem_cons_self
    refine ⟨List.forall_mem_cons.2 ⟨by omega, fun x hx => ?_⟩, .cons hstarts hconsecutive,
      List.forall_mem_cons.2 ⟨htext, htexts⟩⟩
    have := hstarts x hx
    omega

/-- Where the next edit may begin after edits from `cursor` on: at the end of the last one. -/
def reached (cursor : Int) (front : List Edit) : Int :=
  (front.getLast?.map Edit.stop).getD cursor

theorem reached_cons (cursor : Int) (e : Edit) (front : List Edit) : reached cursor (e :: front) = reached e.stop front := by
  rw [reached, reached, List.getLast?_cons]
  cases front.getLast? with
  | none => rfl
  | some a => rfl

/-- **What is wrong with an edit where the next one may begin at `place`**: it begins before, or its text cannot be
written. -/
inductive FaultAt (place : Int) (e : Edit) : EditError → Prop
  | overlap : e.start < place → FaultAt place e (.overlap e.start place)
  | unencodable {f : EncodeError} : place ≤ e.start → e.text.bytes = .error f → FaultAt place e (.unencodable f)

theorem splice_cons_eq_error_iff {source : List UInt8} {rest : List Edit} {cursor : Int} {err : EditError} :
    splice source cursor (e :: rest) = .error err ↔
      FaultAt cursor e err ∨ cursor ≤ e.start ∧ e.text.IsText ∧ splice source e.stop rest = .error err := by
  rw [splice]
  split
  · rename_i hcursor
    refine ⟨?_, ?_⟩
    · rintro ⟨⟩
      exact .inl (.overlap hcursor)
    · rintro ((hlt | ⟨hle, hf⟩) | ⟨hle, -⟩)
      · rfl
      · omega
      · omega
  rename_i hcursor
  cases hbytes : e.text.bytes with
  | error f =>
    refine ⟨?_, ?_⟩
    · rintro ⟨⟩
      exact .inl (.unencodable (by omega) hbytes)
    · rintro ((hlt | ⟨-, hf⟩) | ⟨-, ⟨text, htext⟩, -⟩)
      · omega
      · rw [hbytes] at hf
        cases hf
        rfl
      · rw [htext] at hbytes
        cases hbytes
  | ok new =>
    have hrest : (Except.ok new >>= fun bytes => splice source e.stop rest >>= fun tail =>
        Except.ok (slice source cursor e.start ++ bytes ++ tail)) = Except.error err ↔
        splice source e.stop rest = .error err := by
      cases splice source e.stop rest with
      | ok tail => simp [bind, Except.bind]
      | error err' => simp [bind, Except.bind]
    refine ⟨fun h => .inr ⟨by omega, Spelling.text_of_bytes_ok hbytes, hrest.1 h⟩, ?_⟩
    rintro ((hlt | ⟨-, hf⟩) | ⟨-, -, h⟩)
    · omega
    · rw [hbytes] at hf
      cases hf
    · exact hrest.2 h

/-- **Why ordered edits are not applied**: the first of them that is faulty is. -/
theorem splice_eq_error_iff {source : List UInt8} {err : EditError} : ∀ {ordered : List Edit} {cursor : Int},
    (∀ e ∈ ordered, e.start ≤ e.stop) →
    (splice source cursor ordered = .error err ↔ ∃ front e rest, ordered = front ++ e :: rest ∧
      (∀ x ∈ front, cursor ≤ x.start) ∧ Consecutive front ∧ (∀ x ∈ front, x.text.IsText) ∧
      FaultAt (reached cursor front) e err)
  | [], cursor, _ => by
    refine ⟨nofun, ?_⟩
    rintro ⟨front, e, rest, hsplit, -⟩
    simp at hsplit
  | e :: rest, cursor, hle => by
    have hstop := hle e List.mem_cons_self
    rw [splice_cons_eq_error_iff, splice_eq_error_iff fun x hx => hle x (List.mem_cons_of_mem e hx)]
    constructor
    · rintro (hfault | ⟨hcursor, htext, front, x, later, rfl, hstarts, hconsecutive, htexts, hfault⟩)
      · exact ⟨[], e, rest, rfl, by simp, .nil, by simp, hfault⟩
      · refine ⟨e :: front, x, later, rfl, List.forall_mem_cons.2 ⟨hcursor, fun y hy => ?_⟩,
          .cons hstarts hconsecutive, List.forall_mem_cons.2 ⟨htext, htexts⟩, ?_⟩
        · have := hstarts y hy
          omega
        · rwa [reached_cons]
    · rintro ⟨front, x, later, hsplit, hstarts, hconsecutive, htexts, hfault⟩
      cases front with
      | nil =>
        obtain ⟨rfl, rfl⟩ := List.cons.inj hsplit
        exact .inl hfault
      | cons first front =>
        obtain ⟨rfl, rfl⟩ := List.cons.inj hsplit
        obtain ⟨hnext, hlater⟩ := List.pairwise_cons.1 hconsecutive
        obtain ⟨htext, htexts⟩ := List.forall_mem_cons.1 htexts
        exact .inr ⟨hstarts e List.mem_cons_self, htext, front, x, later, rfl, hnext, hlater, htexts,
          reached_cons cursor e front ▸ hfault⟩

/-- **What is wrong with an edit behind others**: it begins before the end of the last of them, or its text cannot be
written, though it begins at the end of all of them or later. -/
inductive FaultBehind (front : List Edit) (e : Edit) : EditError → Prop
  | overlap {a : Edit} : front.getLast? = some a → e.start < a.stop → FaultBehind front e (.overlap e.start a.stop)
  | unencodable {f : EncodeError} : (∀ a ∈ front, a.stop ≤ e.start) → e.text.bytes = .error f →
    FaultBehind front e (.unencodable f)

theorem faultAt_reached_iff {front : List Edit} {err : EditError} (hstart : 0 ≤ e.start)
    (hle : ∀ x ∈ front, x.start ≤ x.stop) (hconsecutive : Consecutive front) :
    FaultAt (reached 0 front) e err ↔ FaultBehind front e err := by
  rcases front.eq_nil_or_concat with rfl | ⟨before, a, rfl⟩
  · constructor
    · rintro (hlt | ⟨-, hf⟩)
      · simp only [reached, List.getLast?_nil, Option.map_none, Option.getD_none] at hlt
        omega
      · exact .unencodable (by simp) hf
    · rintro (⟨ha, -⟩ | ⟨-, hf⟩)
      · cases ha
      · exact .unencodable hstart hf
  rw [List.concat_eq_append] at hle hconsecutive ⊢
  have hreached : reached 0 (before ++ [a]) = a.stop := by simp [reached]
  -- the last of them ends behind all others
  have hlast : ∀ x ∈ before ++ [a], x.stop ≤ a.stop := by
    rintro x hx
    rcases List.mem_append.1 hx with hx | hx
    · have := (List.pairwise_append.1 hconsecutive).2.2 x hx a List.mem_cons_self
      have := hle a (List.mem_append_right _ List.mem_cons_self)
      omega
    · rw [List.mem_singleton.1 hx]
  rw [hreached]
  constructor
  · rintro (hlt | ⟨hle', hf⟩)
    · exact .overlap (by simp) hlt
    · exact .unencodable (fun x hx => (hlast x hx).trans hle') hf
  · rintro (⟨ha, hlt⟩ | ⟨hbehind, hf⟩)
    · obtain rfl : a = _ := by simpa using ha
      exact .overlap hlt
    · exact .unencodable (hbehind a (List.mem_append_right _ List.mem_cons_self)) hf

/-- An edit of a text stands between characters of it. -/
theorem Fits.exists_split (h : e.Fits cs) : ∃ pre old post, cs = pre ++ old ++ post ∧ e.start = (encode pre).length ∧
    e.stop = (encode (pre ++ old)).length := by
  obtain ⟨pre, rest, hcs, hstart⟩ := h.start_boundary
  obtain ⟨front, post, hcs', hstop⟩ := h.stop_boundary
  have hnonneg := h.start_nonneg
  have hle := h.start_le_stop
  obtain ⟨old, rfl, rfl⟩ := exists_append_of_encode_length_le (hcs.symm.trans hcs') (by omega)
  exact ⟨pre, old, post, hcs', by omega, by omega⟩

/-- **What ordered edits that lie apart give**, applied together from a place on that is before all of them, or one at a
time: the text before that place stays. -/
theorem exists_applied : ∀ (ordered : List Edit) (pre post : List Char), (∀ e ∈ ordered, e.Fits (pre ++ post)) →
    (∀ e ∈ ordered, ((encode pre).length : Int) ≤ e.start) → Consecutive ordered → (∀ e ∈ ordered, e.text.IsText) →
    ∃ new, splice (encode (pre ++ post)) (encode pre).length ordered = .ok (encode new) ∧
      applyInTurn (encode (pre ++ post)) ordered = .ok (encode (pre ++ new))
  | [], pre, post, _, _, _, _ => by
    refine ⟨post, ?_, rfl⟩
    rw [splice, encode_append, sliceFrom_append]
  | e :: rest, pre, post, hfits, hstarts, hconsecutive, htexts => by
    obtain ⟨hnext, hlater⟩ := List.pairwise_cons.1 hconsecutive
    obtain ⟨front, old, back, hcs, hstart, hstop⟩ := (hfits e List.mem_cons_self).exists_split
    obtain ⟨text, htext⟩ := htexts e List.mem_cons_self
    have hcursor := hstarts e List.mem_cons_self
    obtain ⟨gap, rfl, rfl⟩ := exists_append_of_encode_length_le (hcs.trans (List.append_assoc _ _ _)) (by omega)
    obtain ⟨new, hsplice, hinTurn⟩ := exists_applied rest (pre ++ gap ++ old) back
      (fun x hx => hcs ▸ hfits x (List.mem_cons_of_mem e hx)) (fun x hx => hstop ▸ hnext x hx) hlater
      fun x hx => htexts x (List.mem_cons_of_mem e hx)
    have hbytes : e.text.bytes = .ok (encode text.toList) := by
      rw [htext]
      rfl
    rw [hcs]
    refine ⟨gap ++ (text.toList ++ new), ?_, ?_⟩
    · have hslice : slice (encode (pre ++ gap ++ old ++ back)) (encode pre).length e.start = encode gap := by
        rw [hstart, List.append_assoc (pre ++ gap), encode_append, encode_append, List.length_append, slice_append]
      rw [splice, if_neg (by omega), hbytes, hstop, hsplice, hslice]
      simp [Except.mapError, bind, Except.bind, pure, Except.pure, encode_append]
    · have hfront : (encode (pre ++ gap ++ old ++ new)).take e.start.toNat = encode (pre ++ gap) := by
        rw [hstart, Int.toNat_natCast, List.append_assoc (pre ++ gap), encode_append (pre ++ gap), List.take_left]
      have hback : (encode (pre ++ gap ++ old ++ new)).drop e.stop.toNat = encode new := by
        rw [hstop, Int.toNat_natCast, encode_append _ new, List.drop_left]
      rw [applyInTurn, hinTurn]
      change e.apply (encode (pre ++ gap ++ old ++ new)) = _
      rw [apply, hbytes, hfront, hback]
      simp [Except.map, encode_append]

/-! ## Applying arranged edits -/

section Arranged

variable {text : String}

theorem Arranged.applyAll_eq (h : Arranged edits ordered) (source : List UInt8) :
    applyAll source edits = splice source 0 ordered >>= fun bytes =>
      (decodeString bytes).mapError EditError.undecodable := by
  unfold applyAll
  rw [h.eq_mergeSort]

/-- **Arranged edits that lie apart are applied**, where their texts can be written. -/
theorem Arranged.exists_applyAll (h : Arranged edits ordered) (hfits : ∀ e ∈ edits, e.Fits text.toList)
    (hconsecutive : Consecutive ordered) (htexts : ∀ e ∈ edits, e.text.IsText) :
    ∃ new : List Char, applyAll (bytesOf text) edits = .ok (String.ofList new) ∧
      applyInTurn (bytesOf text) ordered = .ok (encode new) := by
  have hfits' : ∀ e ∈ ordered, e.Fits text.toList := fun e he => hfits e (h.mem_iff.1 he)
  obtain ⟨new, hsplice, hinTurn⟩ := exists_applied ordered [] text.toList hfits'
    (fun e he => (hfits' e he).start_nonneg) hconsecutive fun e he => htexts e (h.mem_iff.1 he)
  refine ⟨new, ?_, hinTurn⟩
  have hdecode : decodeString (encode new) = .ok (String.ofList new) := decodeString_encode new
  have hsplice : splice (bytesOf text) 0 ordered = .ok (encode new) := hsplice
  rw [h.applyAll_eq, hsplice]
  change (decodeString (encode new)).mapError EditError.undecodable = _
  rw [hdecode]
  rfl

theorem Arranged.of_splice_ok (h : Arranged edits ordered) (hfits : ∀ e ∈ edits, e.Fits text.toList)
    {bytes : List UInt8} (hsplice : splice (bytesOf text) 0 ordered = .ok bytes) :
    Consecutive ordered ∧ ∀ e ∈ edits, e.text.IsText := by
  obtain ⟨-, hconsecutive, htexts⟩ :=
    consecutive_of_splice (fun e he => (hfits e (h.mem_iff.1 he)).start_le_stop) hsplice
  exact ⟨hconsecutive, fun e he => htexts e (h.mem_iff.2 he)⟩

/-- **Where arranged edits are applied, they lie apart, and their texts can be written.** -/
theorem Arranged.of_applyAll_ok (h : Arranged edits ordered) (hfits : ∀ e ∈ edits, e.Fits text.toList)
    {result : String} (hresult : applyAll (bytesOf text) edits = .ok result) :
    Consecutive ordered ∧ ∀ e ∈ edits, e.text.IsText := by
  rw [h.applyAll_eq] at hresult
  obtain ⟨bytes, hsplice, -⟩ := Node.bind_eq_ok_iff.1 hresult
  exact h.of_splice_ok hfits hsplice

/-- What is put together of a text and of texts can be read again, so only putting it together can fail. -/
theorem Arranged.applyAll_eq_error_iff_splice (h : Arranged edits ordered) (hfits : ∀ e ∈ edits, e.Fits text.toList)
    {err : EditError} :
    applyAll (bytesOf text) edits = .error err ↔ splice (bytesOf text) 0 ordered = .error err := by
  cases hsplice : splice (bytesOf text) 0 ordered with
  | ok bytes =>
    obtain ⟨hconsecutive, htexts⟩ := h.of_splice_ok hfits hsplice
    obtain ⟨new, hnew, -⟩ := h.exists_applyAll hfits hconsecutive htexts
    rw [hnew]
    exact ⟨nofun, nofun⟩
  | error err' =>
    rw [h.applyAll_eq, hsplice]
    simp [bind, Except.bind]

/-- **Why edits of a text are not applied**: the first of them in order that is faulty is. -/
theorem Arranged.applyAll_eq_error_iff (h : Arranged edits ordered) (hfits : ∀ e ∈ edits, e.Fits text.toList)
    {err : EditError} :
    applyAll (bytesOf text) edits = .error err ↔ ∃ front e rest, ordered = front ++ e :: rest ∧
      Consecutive front ∧ (∀ x ∈ front, x.text.IsText) ∧ FaultBehind front e err := by
  have hfits' : ∀ e ∈ ordered, e.Fits text.toList := fun e he => hfits e (h.mem_iff.1 he)
  rw [h.applyAll_eq_error_iff_splice hfits, splice_eq_error_iff fun e he => (hfits' e he).start_le_stop]
  refine exists_congr fun front => exists_congr fun e => exists_congr fun rest => and_congr_right fun hsplit => ?_
  have hfront : ∀ x ∈ front, x.Fits text.toList := fun x hx => hfits' x (hsplit ▸ List.mem_append_left _ hx)
  have he : e.Fits text.toList := hfits' e (hsplit ▸ List.mem_append_right _ List.mem_cons_self)
  rw [and_iff_right fun x hx => (hfront x hx).start_nonneg]
  refine and_congr_right fun hconsecutive => and_congr_right fun _ => ?_
  exact faultAt_reached_iff he.start_nonneg (fun x hx => (hfront x hx).start_le_stop) hconsecutive

end Arranged

/-- **Edits are applied together as if one at a time.**  Edits of a text can be applied just where, in order, none
begins before the end of an earlier one, and every text can be written; the first condition says that every two of them
lie apart.  Where they cannot, the error names the first edit in order that is faulty, and what is wrong with it.  The
result is that of applying the edits one at a time from the last to the first, and does not depend on the order in which
edits with other bounds are given. -/
theorem applyAll_in_turn {text : String} {edits ordered : List Edit} (hfits : ∀ e ∈ edits, e.Fits text.toList)
    (hordered : Arranged edits ordered) :
    ((∃ result, applyAll (bytesOf text) edits = .ok result) ↔
      Consecutive ordered ∧ ∀ e ∈ edits, e.text.IsText) ∧
    (Consecutive ordered ↔ edits.Pairwise Apart) ∧
    (∀ err, applyAll (bytesOf text) edits = .error err ↔ ∃ front e rest, ordered = front ++ e :: rest ∧
      Consecutive front ∧ (∀ x ∈ front, x.text.IsText) ∧ FaultBehind front e err) ∧
    (∀ result, applyAll (bytesOf text) edits = .ok result →
      applyInTurn (bytesOf text) ordered = .ok (bytesOf result)) ∧
    ∀ edits', Arranged edits' ordered → applyAll (bytesOf text) edits' = applyAll (bytesOf text) edits := by
  refine ⟨⟨fun ⟨_, h⟩ => hordered.of_applyAll_ok hfits h, fun ⟨hconsecutive, htexts⟩ => ?_⟩,
    hordered.consecutive_iff fun e he => (hfits e he).start_le_stop, fun err => hordered.applyAll_eq_error_iff hfits,
    fun result h => ?_, fun edits' h' => ?_⟩
  · obtain ⟨new, hnew, -⟩ := hordered.exists_applyAll hfits hconsecutive htexts
    exact ⟨_, hnew⟩
  · obtain ⟨hconsecutive, htexts⟩ := hordered.of_applyAll_ok hfits h
    obtain ⟨new, hnew, hinTurn⟩ := hordered.exists_applyAll hfits hconsecutive htexts
    rw [h] at hnew
    rw [hinTurn, Except.ok.inj hnew, bytesOf, String.toList_ofList]
  · rw [hordered.applyAll_eq, h'.applyAll_eq]

/-- A replacement with insertions at both of its ends: those before it keep their order. -/
theorem applyAll_in_turn_around_replacement :
    let edits : List Edit := [⟨2, 3, "plus"⟩, insertion 3 "!", insertion 2 "x", insertion 2 "y"]
    let ordered : List Edit := [insertion 2 "x", insertion 2 "y", ⟨2, 3, "plus"⟩, insertion 3 "!"]
    (∀ e ∈ edits, e.Fits "a + b".toList) ∧ Arranged edits ordered ∧
      applyAll (bytesOf "a + b") edits = .ok "a xyplus! b" ∧
      applyInTurn (bytesOf "a + b") ordered = .ok (bytesOf "a xyplus! b") := by
  intro edits ordered
  have hfits : ∀ e ∈ edits, e.Fits "a + b".toList := by
    simp only [edits, List.forall_mem_cons]
    exact ⟨⟨by decide, by decide, by decide, by decide⟩, ⟨by decide, by decide, by decide, by decide⟩,
      ⟨by decide, by decide, by decide, by decide⟩, ⟨by decide, by decide, by decide, by decide⟩, by simp⟩
  have hordered : Arranged edits ordered := by
    have hsorted : edits.mergeSort before = ordered := by cbv
    exact hsorted ▸ arranged_mergeSort edits
  obtain ⟨-, -, -, hinTurn, -⟩ := applyAll_in_turn hfits hordered
  have hresult : applyAll (bytesOf "a + b") edits = .ok "a xyplus! b" := by
    unfold applyAll
    rw [hordered.eq_mergeSort]
    cbv
  exact ⟨hfits, hordered, hresult, hinTurn _ hresult⟩

/-- **Half a character in the text of a single edit makes applying it fail**, though no edit begins before the end of
another. -/
theorem half_character_fails_alone :
    let e := insertion 2 (Comment.annotation "+" (.broken [.half 0] rfl))
    (∀ x ∈ [e], x.Fits "a+b".toList) ∧ Arranged [e] [e] ∧ Consecutive [e] ∧
      applyAll (bytesOf "a+b") [e] = .error (.unencodable ⟨16, [.half 0]⟩) := by
  intro e
  have hordered : Arranged [e] [e] := ⟨List.pairwise_singleton _ _, fun _ _ => rfl⟩
  refine ⟨?_, hordered, List.pairwise_singleton _ _, ?_⟩
  · rw [List.forall_mem_singleton]
    exact ⟨by decide, by decide, by decide, by decide⟩
  · unfold applyAll
    rw [hordered.eq_mergeSort]
    cbv

end Edit
end Argot
