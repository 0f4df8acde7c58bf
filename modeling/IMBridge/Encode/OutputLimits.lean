import IMBridge.Encode.Base64RoundTrip
import IMBridge.Encode.QuotedPrintable

/-!
Whether the codecs stay inside the buffers they are given. The Base64 encoder counts the characters
of its rounds beforehand, but not the line breaks between them, and the Base64 decoder counts one
byte for all its groups. The estimate of the quoted-printable encoder is enough for every input.
-/

namespace IMBridge.Encode

namespace Base64

/-- The position stays inside the buffer, and a call that succeeds has written everything. -/
def Call.Reports (call : Call) (outputLen : Nat) (complete : List Byte) : Prop :=
  call.pos ≤ outputLen ∧ (call.ret = none → call.written = complete)

variable {input : List Byte} {outputLen pos : Nat}

theorem reports_puts (complete : List Byte) :
    ((Call.start pos).puts complete).Reports outputLen complete ↔ pos + complete.length ≤ outputLen :=
  and_iff_left (fun _ => rfl)

theorem reports_fail (written complete : List Byte) (failure : Failure) :
    (((Call.start pos).puts written).fail failure).Reports outputLen complete ↔ pos + written.length ≤ outputLen :=
  and_iff_left (fun succeeds => by cases succeeds)

theorem encodeTail_pos_le {call : Call} (inside : call.pos ≤ outputLen) (rest : List Byte) :
    (encodeTail outputLen call rest).pos ≤ outputLen := by
  fun_cases encodeTail outputLen call rest with
  | case1 => exact inside
  | case2 a full => exact inside
  | case3 a room =>
    simp only [Call.puts_pos, List.length_cons, List.length_nil]
    omega
  | case4 a b rest full => exact inside
  | case5 a b rest room =>
    simp only [Call.puts_pos, List.length_cons, List.length_nil]
    omega

theorem encodeTail_ret_of_failed {call : Call} (failed : call.ret ≠ none) (rest : List Byte) :
    (encodeTail outputLen call rest).ret ≠ none := by
  fun_cases encodeTail outputLen call rest with
  | case1 => exact failed
  | case2 a full => simp
  | case3 a room => exact failed
  | case4 a b rest full => simp
  | case5 a b rest room => exact failed

/-- The encoder leaves the buffer exactly if there is room for its rounds, but not for the line
breaks between them. -/
theorem encode_reports_iff {wrap : Nat} (whole : 4 ∣ wrap) (inside : pos ≤ outputLen) :
    (encode input outputLen pos wrap).Reports outputLen (text wrap input) ↔ ¬(pos + input.length / 3 * 4 ≤ outputLen ∧
        outputLen < pos + input.length / 3 * 4 + lineBreaks wrap input) := by
  have length := text_length wrap input
  rw [padded_length] at length
  by_cases fits : pos + input.length / 3 * 4 ≤ outputLen
  · obtain ⟨front, frontLength, written⟩ := encode_eq whole fits
    rw [written]
    split_ifs with complete
    · rw [reports_puts]
      omega
    · rw [reports_fail]
      omega
  · rw [encode, if_pos (Nat.not_le.mp fits)]
    refine iff_of_true ⟨encodeTail_pos_le inside input, ?_⟩ (fun both => fits both.1)
    intro succeeds
    exact absurd succeeds (encodeTail_ret_of_failed (by simp) input)

/-- The decoder leaves the buffer exactly if there is room for a byte, but not for the whole groups
in front of the first character that is no code. -/
theorem decode_reports_iff (skipSpaces : Bool) (inside : pos ≤ outputLen) :
    (decode input outputLen pos skipSpaces).Reports outputLen (bytes (codeOf skipSpaces input)) ↔
      ¬(pos < outputLen ∧ outputLen < pos + 3 * ((codeOf skipSpaces input).length / 4)) := by
  by_cases none : (skipSpaces && input.all myBase64DecoderSkipSpaces) = true
  · obtain ⟨rfl, all⟩ := Bool.and_eq_true_iff.mp none
    have empty : codeOf true input = [] := by rw [codeOf, strip_eq_nil_iff.mpr all, List.takeWhile_nil]
    rw [decode, if_pos none, empty]
    refine iff_of_true ⟨Nat.zero_le _, fun _ => rfl⟩ ?_
    rw [List.length_nil]
    omega
  have shorter : (codeOf skipSpaces input).length ≤ input.length :=
    ((List.takeWhile_prefix _).length_le).trans (List.length_filter_le _ input)
  by_cases room : (if input.length / 4 * 3 ≠ 0 then 1 else 0) + pos ≤ outputLen
  · have groups : ¬(pos < outputLen ∧ outputLen < pos + 3 * ((codeOf skipSpaces input).length / 4)) ↔
        pos + 3 * ((codeOf skipSpaces input).length / 4) ≤ outputLen := by
      split_ifs at room <;> omega
    rw [groups]
    rcases decode_eq none room with ⟨-, decoded⟩ | ⟨-, refused⟩
    · rw [decoded, decodeTail_eq, bytes_length, Call.start_pos]
      by_cases fits : (codeOf skipSpaces input).length % 4 = 0 ∨ pos + (3 * ((codeOf skipSpaces input).length / 4) +
            ((codeOf skipSpaces input).length % 4 - 1)) < outputLen
      · rw [if_pos fits, reports_puts, bytes_length]
        omega
      · rw [if_neg fits, reports_fail, wholeBytes_length]
    · rw [refused, reports_fail, wholeBytes_length]
  · rw [decode, if_neg none, if_pos (Nat.not_le.mp room)]
    refine iff_of_true ⟨inside, by simp⟩ (fun both => room ?_)
    split_ifs <;> omega

end Base64

namespace QuotedPrintable

/-- `pos` behind a call of `encode`, which moves with every byte written; a call that fails has
written none. -/
def encodePos (input : List Byte) (outputLen pos : Nat) : Nat :=
  match encode input ((outputLen : Int) - pos) with
  | .ok written => pos + written.length
  | .error _ => pos

/-- Every soft break stands behind at least 73 columns. -/
theorem encodeLoop_breaks (lineCount : Nat) (input : List Byte) :
    ∃ breaks, (encodeLoop lineCount input).length ≤ 3 * input.length + 3 * breaks ∧
      73 * breaks ≤ lineCount + 3 * input.length := by
  fun_induction encodeLoop lineCount input with
  | case1 lineCount => exact ⟨0, by simp⟩
  | case2 lineCount char rest pair ih =>
    obtain ⟨breaks, length, columns⟩ := ih
    obtain ⟨tail, rfl⟩ := List.head?_eq_some_iff.mp pair.2
    simp only [List.tail_cons, List.length_cons] at length columns ⊢
    exact ⟨breaks, by omega, by omega⟩
  | case3 lineCount char rest single printable full ih =>
    obtain ⟨breaks, length, columns⟩ := ih
    have three : softBreak.length = 3 := rfl
    have line : 75 < lineCount + 1 := full
    simp only [List.length_append, List.length_cons, three]
    exact ⟨breaks + 1, by omega, by omega⟩
  | case4 lineCount char rest single printable room ih =>
    obtain ⟨breaks, length, columns⟩ := ih
    simp only [List.length_cons]
    exact ⟨breaks, by omega, by omega⟩
  | case5 lineCount char rest single escape full ih =>
    obtain ⟨breaks, length, columns⟩ := ih
    have three : softBreak.length = 3 ∧ (escaped char).length = 3 := ⟨rfl, rfl⟩
    have line : 75 < lineCount + 3 := full
    simp only [List.length_append, List.length_cons, three]
    exact ⟨breaks + 1, by omega, by omega⟩
  | case6 lineCount char rest single escape room ih =>
    obtain ⟨breaks, length, columns⟩ := ih
    have three : (escaped char).length = 3 := rfl
    simp only [List.length_append, List.length_cons, three]
    exact ⟨breaks, by omega, by omega⟩

theorem encodePos_le (input : List Byte) {outputLen pos : Nat} (inside : pos ≤ outputLen) :
    encodePos input outputLen pos ≤ outputLen := by
  obtain ⟨breaks, length, columns⟩ := encodeLoop_breaks 0 input
  unfold encodePos encode
  grind

theorem eq_encodeLoop_of_encode {input written : List Byte} {room : Int}
    (wrote : encode input room = .ok written) : written = encodeLoop 0 input := by
  unfold encode at wrote
  split_ifs at wrote
  cases wrote
  rfl

end QuotedPrintable

open Base64 in
/-- A call of the Base64 encoder reports a buffer that is too small unless the room is enough for
the groups and not for the line breaks, one of the decoder unless there is room for a byte and not
for the groups, and one of the quoted-printable encoder always. -/
theorem small_buffers_reported_iff (input : List (BitVec 8)) (outputLen pos : Nat) (inside : pos ≤ outputLen) :
    (∀ wrap : Nat, 4 ∣ wrap →
      ((encode input outputLen pos wrap).Reports outputLen (text wrap input) ↔
        ¬(pos + input.length / 3 * 4 ≤ outputLen ∧
          outputLen < pos + input.length / 3 * 4 + lineBreaks wrap input))) ∧
    (∀ skipSpaces : Bool,
      ((decode input outputLen pos skipSpaces).Reports outputLen (bytes (codeOf skipSpaces input)) ↔
        ¬(pos < outputLen ∧ outputLen < pos + 3 * ((codeOf skipSpaces input).length / 4)))) ∧
    QuotedPrintable.encodePos input outputLen pos ≤ outputLen ∧
      ∀ written, QuotedPrintable.encode input ((outputLen : Int) - pos) = .ok written →
        written = QuotedPrintable.encodeLoop 0 input :=
  ⟨fun _ whole => encode_reports_iff whole inside, fun skipSpaces => decode_reports_iff skipSpaces inside,
    QuotedPrintable.encodePos_le input inside, fun _ => QuotedPrintable.eq_encodeLoop_of_encode⟩

/-- Buffers of nine bytes for the two lines of six bytes, of three for those of four characters, and
of three for an escaped character. -/
theorem exact_buffers_reported :
    (Base64.encode (List.replicate 6 0) 9 0 4).Reports 9 (Base64.text 4 (List.replicate 6 0)) ∧
      (Base64.decode (List.replicate 4 65) 3 0 true).Reports 3
        (Base64.bytes (Base64.codeOf true (List.replicate 4 65))) ∧
      QuotedPrintable.encodePos [0] 3 0 ≤ 3 ∧
      [61, 48, 48] = QuotedPrintable.encodeLoop 0 [0] :=
  ⟨((small_buffers_reported_iff _ 9 0 (Nat.zero_le 9)).1 4 (by decide)).mpr (by decide),
    ((small_buffers_reported_iff _ 3 0 (Nat.zero_le 3)).2.1 true).mpr (by decide +kernel),
    (small_buffers_reported_iff [0] 3 0 (Nat.zero_le 3)).2.2.1,
    (small_buffers_reported_iff [0] 3 0 (Nat.zero_le 3)).2.2.2 [61, 48, 48] (by
      simp only [QuotedPrintable.encode, QuotedPrintable.encodeLoop]
      rfl)⟩

/-- The text of six bytes in two lines has nine characters and is written to a buffer of eight,
and the six bytes of eight characters are written to a buffer of one. -/
theorem line_break_and_groups_overrun :
    let encoded := Base64.encode (List.replicate 6 0) 8 0 4
    let decoded := Base64.decode (List.replicate 8 65) 1 0
    encoded.ret = none ∧ encoded.pos = 9 ∧
      ∀ skipSpaces, (decoded skipSpaces).ret = none ∧ (decoded skipSpaces).pos = 6 := by
  decide +kernel

end IMBridge.Encode
