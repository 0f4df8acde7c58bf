import IMBridge.Encode.QuotedPrintable

/-!
What the decoders make of an encoded text. `decode` gives back every input without a CR LF.
`decode_for_text` moreover stops at the first soft break, because the loop in front of it asks for a
byte that is a CR and a LF at once.
-/

namespace IMBridge.Encode.QuotedPrintable

open IMBridge.Lib Decoder Buffer List

/-! ### The text of one character -/

def charText (char : Byte) : List Byte :=
  if isPrintable char false then [char] else escaped char

theorem charText_length_pos (char : Byte) : 0 < (charText char).length := by
  unfold charText
  split_ifs <;> simp [escaped]

theorem charText_length_le (char : Byte) : (charText char).length ≤ bytePerLine - 1 := by
  unfold charText
  split_ifs <;> simp [escaped, bytePerLine]

def columns (input : List Byte) : Nat := (input.map (fun char => (charText char).length)).sum

theorem columns_cons (char : Byte) (rest : List Byte) :
    columns (char :: rest) = (charText char).length + columns rest := rfl

variable {char : Byte} {rest text : List Byte} {lineCount : Nat}

theorem encodeLoop_cons (single : ¬(char = qpCr ∧ rest.head? = some qpLf)) : encodeLoop lineCount (char :: rest) =
      if bytePerLine - 1 < lineCount + (charText char).length then
        softBreak ++ (charText char ++ encodeLoop (charText char).length rest)
      else charText char ++ encodeLoop (lineCount + (charText char).length) rest := by
  rw [encodeLoop, if_neg single]
  unfold charText
  by_cases printable : isPrintable char false = true
  · simp only [if_pos printable]
    rfl
  · simp only [if_neg printable]
    rfl

theorem hex_digits (char : Byte) : isHex (hexChar (char >>> 4)) = true ∧ isHex (hexChar (char &&& 0xF)) = true ∧
      charConvertToHex (hexChar (char >>> 4)) = some (char >>> 4) ∧
      charConvertToHex (hexChar (char &&& 0xF)) = some (char &&& 0xF) ∧
      (char >>> 4) <<< 4 ||| (char &&& 0xF) = char := by
  revert char
  decide +kernel

variable {decoder : Decoder} {input : Nat → Byte} {inputLen i : Nat}

theorem loop_of_step {next : Nat} {written : List Byte} (small : i ≤ intMax)
    (inside : i < inputLen) (stepped : decoder.step input inputLen i = some (next, written)) :
    decoder.loop input inputLen i = (decoder.loop input inputLen next).map (written ++ ·) := by
  rw [loop, if_neg (by omega), if_pos inside]
  split
  · rename_i failed
    rw [failed] at stepped
    cases stepped
  · rename_i other same
    rw [same] at stepped
    cases stepped
    rfl

theorem loop_of_failed_step (inside : i < inputLen) (failed : decoder.step input inputLen i = none)
    (result : List Byte) : decoder.loop input inputLen i ≠ .ok result := by
  rw [loop, if_pos inside]
  split_ifs
  · simp
  split
  · simp
  rename_i stepped
  rw [failed] at stepped
  cases stepped

theorem inputLen_le_of_loop {result : List Byte}
    (ends : decoder.loop input inputLen i = .ok result) : inputLen ≤ intMax := by
  fun_induction loop decoder input inputLen i generalizing result with
  | case1 => cases ends
  | case2 => cases ends
  | case3 i small inside next written stepped ih =>
    cases rest : decoder.loop input inputLen next with
    | error failure =>
      rw [rest] at ends
      cases ends
    | ok tail => exact ih rest
  | case4 => omega

theorem step_printable (printable : isPrintable (input i) false = true) :
    decoder.step input inputLen i = some (i + 1, [input i]) :=
  if_pos printable

theorem escape_not_printable : ¬isPrintable qpEscapeChar false = true := by
  decide

theorem step_escaped (inside : i + 2 ≤ inputLen) (first : input i = qpEscapeChar)
    (second : input (i + 1) = hexChar (char >>> 4)) (third : input (i + 2) = hexChar (char &&& 0xF)) :
    decoder.step input inputLen i = some (i + 3, [char]) := by
  obtain ⟨highHex, lowHex, high, low, whole⟩ := hex_digits char
  rw [step, first, second, third, if_neg escape_not_printable, if_pos ⟨rfl, inside⟩,
    if_pos highHex, if_pos lowHex, high, low]
  simp only [Option.bind_eq_bind, Option.bind_some, whole]

/-- A soft break is left to the loop over blanks, which only `decode` gets past. -/
theorem step_softBreak (decoder : Decoder)
    (holds : Holds (fun k => input (i + k)) softBreak) (inside : i + 3 ≤ inputLen) :
    decoder.step input inputLen i = if decoder = .plain then some (i + 3, []) else none := by
  have length : softBreak.length = 3 := rfl
  have first : input i = qpEscapeChar := holds 0 (by omega)
  have second : input (i + 1) = qpCr := holds 1 (by omega)
  have third : input (i + 1 + 1) = qpLf := holds 2 (by omega)
  have noHex : ¬isHex qpCr = true := by decide
  rw [step, first, second, if_neg escape_not_printable, if_pos ⟨rfl, by omega⟩, if_neg noHex]
  cases decoder with
  | plain => rw [skipBreak_plain, if_pos ⟨second, third⟩, if_pos rfl, Option.map_some]
  | text => rw [skipBreak_text, if_neg (by decide), Option.map_none]

theorem step_cr (first : input i = qpCr) : decoder.step input inputLen i = none := by
  have noPrintable : ¬isPrintable qpCr false = true := by decide
  have noEscape : qpCr ≠ qpEscapeChar := by decide
  rw [step, first, if_neg noPrintable, if_neg (fun both => noEscape both.1)]
  cases decoder with
  | plain => rfl
  | text =>
    rw [lone, first, if_neg (fun both => noEscape both.1)]
    rfl

theorem step_charText (holds : Holds (fun k => input (i + k)) (charText char))
    (inside : i + (charText char).length ≤ inputLen) :
    decoder.step input inputLen i = some (i + (charText char).length, [char]) := by
  unfold charText at holds inside ⊢
  by_cases printable : isPrintable char false = true
  · rw [if_pos printable] at holds ⊢
    have first : input i = char := (holds_cons.mp holds).1
    rw [step_printable (by rwa [first]), first]
    rfl
  · rw [if_neg printable] at holds inside ⊢
    have length : (escaped char).length = 3 := rfl
    exact step_escaped (by omega) (holds 0 (by omega)) (holds 1 (by omega)) (holds 2 (by omega))

/-! ### Whole texts -/

theorem loop_char {result : List Byte} (small : inputLen ≤ intMax)
    (holds : Holds (fun k => input (i + k)) (charText char ++ rest))
    (stop : i + (charText char ++ rest).length = inputLen) :
    decoder.loop input inputLen i = .ok (char :: result) ↔
      decoder.loop input inputLen (i + (charText char).length) = .ok result := by
  have some := charText_length_pos char
  rw [length_append] at stop
  rw [loop_of_step (by omega) (by omega) (step_charText holds.left_of_append (by omega))]
  cases decoder.loop input inputLen (i + (charText char).length) with
  | error failure => simp [Except.map]
  | ok tail => simp [Except.map]

theorem loop_softBreak_plain (small : inputLen ≤ intMax) (holds : Holds (fun k => input (i + k)) (softBreak ++ rest))
    (stop : i + (softBreak ++ rest).length = inputLen) :
    Decoder.plain.loop input inputLen i = Decoder.plain.loop input inputLen (i + softBreak.length) := by
  have length : softBreak.length = 3 := rfl
  rw [length_append] at stop
  have stepped := step_softBreak .plain holds.left_of_append (by omega : i + 3 ≤ inputLen)
  rw [if_pos rfl] at stepped
  rw [loop_of_step (by omega) (by omega) stepped, length]
  cases Decoder.plain.loop input inputLen (i + 3) with
  | error failure => rfl
  | ok tail => rfl

theorem loop_softBreak_text (holds : Holds (fun k => input (i + k)) (softBreak ++ rest))
    (stop : i + (softBreak ++ rest).length = inputLen) (result : List Byte) :
    Decoder.text.loop input inputLen i ≠ .ok result := by
  have length : softBreak.length = 3 := rfl
  rw [length_append] at stop
  have stepped := step_softBreak .text holds.left_of_append (by omega : i + 3 ≤ inputLen)
  rw [if_neg (by decide)] at stepped
  exact loop_of_failed_step (by omega) stepped result

theorem crLf_infix_of_head (pair : char = qpCr ∧ rest.head? = some qpLf) : [qpCr, qpLf] <:+: char :: rest := by
  obtain ⟨rfl, begins⟩ := pair
  obtain ⟨tail, rfl⟩ := head?_eq_some_iff.mp begins
  exact ⟨[], tail, rfl⟩

theorem crLf_infix_cons (single : ¬(char = qpCr ∧ rest.head? = some qpLf)) :
    [qpCr, qpLf] <:+: char :: rest ↔ [qpCr, qpLf] <:+: rest := by
  rw [infix_cons_iff, cons_prefix_cons]
  apply or_iff_right
  rintro ⟨same, begins⟩
  refine single ⟨same.symm, ?_⟩
  cases rest with
  | nil => simp at begins
  | cons next rest =>
    grind

/-- What a decoder makes of the encoding of `text`, started at `i` with `lineCount` columns of
the line taken: it gives `text` back unless there is a CR LF in it and, for `decode_for_text`,
unless the line is too short for it. -/
theorem loop_encodeLoop (decoder : Decoder) (small : inputLen ≤ intMax) (line : lineCount ≤ bytePerLine - 1)
    (holds : Holds (fun k => input (i + k)) (encodeLoop lineCount text))
    (stop : i + (encodeLoop lineCount text).length = inputLen) :
    decoder.loop input inputLen i = .ok text ↔ ¬[qpCr, qpLf] <:+: text ∧
        (decoder = .text → lineCount + columns text ≤ bytePerLine - 1) := by
  induction text generalizing lineCount i with
  | nil =>
    rw [encodeLoop, length_nil] at stop
    rw [loop, if_neg (by omega), if_neg (by omega)]
    simpa [columns] using fun _ => line
  | cons char rest ih =>
    by_cases pair : char = qpCr ∧ rest.head? = some qpLf
    · -- the pair is passed on by the encoder and refused by the decoders
      have present := crLf_infix_of_head pair
      rw [encodeLoop, if_pos pair] at holds stop
      have first : input i = qpCr := (holds_cons.mp holds).1
      simp only [length_cons] at stop
      refine iff_of_false ?_ (fun both => both.1 present)
      exact loop_of_failed_step (by omega) (step_cr first) (char :: rest)
    rw [encodeLoop_cons pair] at holds stop
    rw [crLf_infix_cons pair, columns_cons]
    by_cases full : bytePerLine - 1 < lineCount + (charText char).length
    · rw [if_pos full] at holds stop
      cases decoder with
      | plain =>
        rw [loop_softBreak_plain small holds stop]
        rw [length_append, ← Nat.add_assoc] at stop
        rw [loop_char small holds.behind stop]
        rw [length_append, ← Nat.add_assoc] at stop
        rw [ih (charText_length_le char) holds.behind.behind stop]
        simp
      | text =>
        refine iff_of_false (loop_softBreak_text holds stop _) (fun both => ?_)
        have fits := both.2 rfl
        omega
    · rw [if_neg full] at holds stop
      rw [loop_char small holds stop]
      rw [length_append, ← Nat.add_assoc] at stop
      rw [ih (by omega) holds.behind stop, Nat.add_assoc]

/-- A decoder undoes the encoder on a string: whatever room beyond the least the two calls are
given, the encoder succeeds, and the decoder, given the bytes it wrote, succeeds and writes the
string. -/
def Undoes (decode : (Nat → Byte) → Nat → Int → Except Failure (List Byte)) (text : List Byte) :
    Prop :=
  ∀ room : Int, text.length * 3 + text.length * 3 / 73 * 3 ≤ room →
    ∃ encoded, encode text room = .ok encoded ∧ ∀ input, Holds input encoded →
        ∀ roomBack : Int, encoded.length ≤ roomBack →
          decode input encoded.length roomBack = .ok text

/-- A decoder undoes the encoder where its loop does, at the start of whatever memory holds the
encoded text. -/
theorem undoes_iff (decoder : Decoder) (text : List Byte) :
    Undoes decoder.run text ↔ ∀ input, Holds input (encodeLoop 0 text) →
      decoder.loop input (encodeLoop 0 text).length 0 = .ok text := by
  constructor
  · intro undoes input holds
    obtain ⟨encoded, wrote, back⟩ := undoes _ (Int.le_refl _)
    rw [encode, if_neg (Int.lt_irrefl _)] at wrote
    cases wrote
    have result := back input holds _ (Int.le_refl _)
    rwa [run, if_neg (Int.lt_irrefl _)] at result
  · intro loops room enough
    refine ⟨encodeLoop 0 text, if_neg (Int.not_lt.mpr enough), fun input holds roomBack fits => ?_⟩
    rw [run, if_neg (Int.not_lt.mpr fits)]
    exact loops input holds

theorem encodeLoop_length_le (decoder : Decoder) (undoes : Undoes decoder.run text) :
    (encodeLoop 0 text).length ≤ intMax :=
  inputLen_le_of_loop ((undoes_iff decoder text).mp undoes _ (holds_write_zero (fun _ => 0) (encodeLoop 0 text)))

theorem decoder_undoes_iff (decoder : Decoder) (text : List Byte) :
    Undoes decoder.run text ↔ (encodeLoop 0 text).length ≤ intMax ∧
      ¬[qpCr, qpLf] <:+: text ∧ (decoder = .text → columns text ≤ bytePerLine - 1) := by
  have loops : ∀ input, Holds input (encodeLoop 0 text) → (encodeLoop 0 text).length ≤ intMax →
      (decoder.loop input (encodeLoop 0 text).length 0 = .ok text ↔
        ¬[qpCr, qpLf] <:+: text ∧ (decoder = .text → columns text ≤ bytePerLine - 1)) := by
    intro input holds small
    have result := loop_encodeLoop decoder small (Nat.zero_le _)
      (by simpa only [Nat.zero_add] using holds) (Nat.zero_add _)
    rwa [Nat.zero_add] at result
  constructor
  · intro undoes
    have small := encodeLoop_length_le decoder undoes
    have holds := holds_write_zero (fun _ => 0) (encodeLoop 0 text)
    exact ⟨small, (loops _ holds small).mp ((undoes_iff decoder text).mp undoes _ holds)⟩
  · rintro ⟨small, clean⟩
    rw [undoes_iff]
    grind

theorem encodeLoop_length (noPair : ¬[qpCr, qpLf] <:+: text) (fits : lineCount + columns text ≤ bytePerLine - 1) :
    (encodeLoop lineCount text).length = columns text := by
  induction text generalizing lineCount with
  | nil =>
    rw [encodeLoop]
    rfl
  | cons char rest ih =>
    have single : ¬(char = qpCr ∧ rest.head? = some qpLf) := fun pair => noPair (crLf_infix_of_head pair)
    rw [crLf_infix_cons single] at noPair
    rw [columns_cons] at fits ⊢
    rw [encodeLoop_cons single, if_neg (by omega), length_append, ih noPair (by omega)]

/-- A string survives the encoder and each of the two decoders exactly if it has no CR LF in it
and takes no more columns than a line has. -/
theorem survives_iff (text : List Byte) : Undoes decode text ∧ Undoes decodeForText text ↔
      ¬[qpCr, qpLf] <:+: text ∧ columns text ≤ bytePerLine - 1 := by
  have plain := decoder_undoes_iff .plain text
  have forText := decoder_undoes_iff .text text
  constructor
  · rintro ⟨-, undoes⟩
    obtain ⟨-, noPair, fits⟩ := forText.mp undoes
    exact ⟨noPair, fits rfl⟩
  · rintro ⟨noPair, fits⟩
    have length := encodeLoop_length noPair (by rwa [Nat.zero_add] : 0 + columns text ≤ _)
    have small : (encodeLoop 0 text).length ≤ intMax := by
      rw [length]
      exact Nat.le_trans fits (by decide)
    exact ⟨plain.mpr ⟨small, noPair, fun _ => fits⟩, forText.mpr ⟨small, noPair, fun _ => fits⟩⟩

/-- Neither decoder gives back a line end, and `decode_for_text` does not give back a line of
76 letters. -/
theorem line_end_and_long_line_lost :
    ¬Undoes decode [qpCr, qpLf] ∧ ¬Undoes decodeForText [qpCr, qpLf] ∧
      ¬Undoes decodeForText (replicate 76 97) := by
  refine ⟨fun undoes => ?_, fun undoes => ?_, fun undoes => ?_⟩
  · exact ((decoder_undoes_iff .plain _).mp undoes).2.1 (infix_refl _)
  · exact ((decoder_undoes_iff .text _).mp undoes).2.1 (infix_refl _)
  · exact absurd (((decoder_undoes_iff .text _).mp undoes).2.2 rfl) (by decide)

end IMBridge.Encode.QuotedPrintable
