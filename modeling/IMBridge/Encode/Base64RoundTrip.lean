import Mathlib.Data.List.TakeWhile
import IMBridge.Encode.Base64Text

/-!
What the two loops of the codec do. The encoder writes the text of its input. The decoder sees a
text without its spaces: a run of symbols, whose bytes it writes, and what stands behind them.
-/

namespace IMBridge.Encode.Base64

open Call List
variable {input : List Byte} {outputLen pos : Nat}

@[simp] theorem Call.start_pos (pos : Nat) : (Call.start pos).pos = pos := rfl

variable (call : Call)

@[simp] theorem Call.puts_nil : call.puts [] = call := by
  simp [puts]

@[simp] theorem Call.puts_puts (first second : List Byte) :
    (call.puts first).puts second = call.puts (first ++ second) := by
  simp [puts, Nat.add_assoc]

@[simp] theorem Call.puts_pos (chars : List Byte) : (call.puts chars).pos = call.pos + chars.length := rfl

@[simp] theorem Call.puts_ret (chars : List Byte) : (call.puts chars).ret = call.ret := rfl

@[simp] theorem Call.fail_pos (failure : Failure) : (call.fail failure).pos = call.pos := rfl

@[simp] theorem Call.fail_ret (failure : Failure) : (call.fail failure).ret = some failure := rfl

/-! ### The encoder -/

section Encoder

variable {wrap : Nat}

theorem encodeLoop_step (whole : 4 ∣ wrap) (a b c : Byte) (rest : List Byte) (i : Nat) (call : Call) :
    encodeLoop (3 * i + 3 + rest.length) wrap i (a :: b :: c :: rest) call =
      encodeLoop (3 * i + 3 + rest.length) wrap (i + 1) rest
        (call.puts ((sextets (value a b c)).map symbol ++ lineEnd wrap (4 * i + 4) rest)) := by
  obtain ⟨groups, rfl⟩ := whole
  have more : (i + 1) * 3 ≠ 3 * i + 3 + rest.length ↔ rest ≠ [] := by
    rw [← length_pos_iff]
    omega
  have column : ((i + 1 : Nat) : Int) % groups = 0 ↔ (4 * i + 4) % (4 * groups) = 0 := by
    have cut : (4 * i + 4) % (4 * groups) = 4 * ((i + 1) % groups) := Nat.mul_mod_mul_left 4 (i + 1) groups
    norm_cast
    omega
  have perLine : ((4 * groups : Nat) : Int) / 4 = groups := by omega
  rw [encodeLoop, outputIdxes_chars, perLine]
  simp only [more, column, lineEnd]
  by_cases none : groups = 0
  · grind
  · rw [if_pos (by omega), if_neg (by omega)]
    by_cases full : rest ≠ [] ∧ (4 * i + 4) % (4 * groups) = 0
    · rw [if_pos full.symm, if_pos full, puts_puts]
    grind

theorem breakLines_last (whole : 4 ∣ wrap) {column : Nat} (start : 4 ∣ column) (p q r s : Byte) :
    breakLines wrap column [p, q, r, s] = [p, q, r, s] := by
  rw [breakLines_group whole start]
  rfl

/-- The rounds write the text up to its last group, and leave the bytes of that. -/
theorem encodeLoop_writes (whole : 4 ∣ wrap) (rest : List Byte) (i : Nat) (call : Call) :
    ∃ front tail, encodeLoop (3 * i + rest.length) wrap i rest call = (call.puts front, tail) ∧
      tail.length = rest.length % 3 ∧
      breakLines wrap (4 * i) (padded rest) = front ++ padded tail := by
  have start : 4 ∣ 4 * i := Nat.dvd_mul_right 4 i
  induction rest using symbols.induct generalizing i call with
  | case1 a b c rest ih =>
    obtain ⟨front, tail, runs, short, same⟩ := ih (i + 1)
      (call.puts ((sextets (value a b c)).map symbol ++ lineEnd wrap (4 * i + 4) rest))
      (Nat.dvd_mul_right 4 (i + 1))
    refine ⟨(sextets (value a b c)).map symbol ++ lineEnd wrap (4 * i + 4) rest ++ front, tail, ?_, ?_, ?_⟩
    · have length : 3 * i + (a :: b :: c :: rest).length = 3 * i + 3 + rest.length := by
        simp only [length_cons]
        omega
      rw [puts_puts] at runs
      rwa [length, encodeLoop_step whole]
    · simp only [length_cons]
      omega
    · rw [padded_cons]
      change breakLines wrap (4 * i) (_ :: _ :: _ :: _ :: padded rest) = _
      rw [breakLines_group whole start, lineEnd_padded, append_assoc, append_assoc, ← same]
      rfl
  | case2 a b => exact ⟨[], [a, b], by simp [encodeLoop], rfl, breakLines_last whole start _ _ _ _⟩
  | case3 a => exact ⟨[], [a], by simp [encodeLoop], rfl, breakLines_last whole start _ _ _ _⟩
  | case4 => exact ⟨[], [], by simp [encodeLoop], rfl, rfl⟩

theorem encodeTail_eq (call : Call) {tail : List Byte} (short : tail.length < 3) : encodeTail outputLen call tail =
      if tail = [] ∨ call.pos + 4 ≤ outputLen then call.puts (padded tail)
      else call.fail .bufNotEnough := by
  rcases tail with _ | ⟨a, _ | ⟨b, _ | ⟨c, rest⟩⟩⟩
  · simp [encodeTail, padded, symbols]
  · rw [encodeTail, padded, symbols_one]
    by_cases full : outputLen ≤ call.pos + 3
    · rw [if_pos full, if_neg (by simp; omega)]
    rw [if_neg full, if_pos (by omega)]
    rfl
  · rw [encodeTail, padded, symbols_two]
    by_cases full : outputLen ≤ call.pos + 3
    · rw [if_pos full, if_neg (by simp; omega)]
    rw [if_neg full, if_pos (by omega)]
    rfl
  · simp only [length_cons] at short
    omega

def lineBreaks (wrap : Nat) (input : List Byte) : Nat := ((padded input).length - 1) / wrap

theorem text_length (wrap : Nat) (input : List Byte) :
    (text wrap input).length = (padded input).length + lineBreaks wrap input := by
  simpa [text, lineBreaks] using breakLines_length wrap 0 (padded input)

/-- With room for the rounds, `encode` writes the text, or finds at its end that the last group
does not fit. -/
theorem encode_eq (whole : 4 ∣ wrap) (fits : pos + input.length / 3 * 4 ≤ outputLen) :
    ∃ front, front.length = input.length / 3 * 4 + lineBreaks wrap input ∧ encode input outputLen pos wrap =
        if 3 ∣ input.length ∨ pos + (text wrap input).length ≤ outputLen then
          (Call.start pos).puts (text wrap input)
        else ((Call.start pos).puts front).fail .bufNotEnough := by
  obtain ⟨front, tail, runs, short, same⟩ := encodeLoop_writes whole input 0 (Call.start pos)
  have length := congrArg List.length same
  change (text wrap input).length = _ at length
  rw [text_length, length_append, padded_length, padded_length, short] at length
  have front_length : front.length = input.length / 3 * 4 + lineBreaks wrap input := by omega
  refine ⟨front, front_length, ?_⟩
  have written : text wrap input = front ++ padded tail := same
  have none : tail = [] ↔ 3 ∣ input.length := by
    rw [← length_eq_zero_iff, short, Nat.dvd_iff_mod_eq_zero]
  have room : tail = [] ∨ ((Call.start pos).puts front).pos + 4 ≤ outputLen ↔
      3 ∣ input.length ∨ pos + (text wrap input).length ≤ outputLen := by
    rw [none]
    apply or_congr_right'
    intro some
    rw [written, length_append, padded_length, short]
    change pos + front.length + 4 ≤ outputLen ↔ _
    omega
  rw [Nat.mul_zero, Nat.zero_add] at runs
  rw [encode, if_neg (by omega)]
  simp only [runs]
  rw [encodeTail_eq _ (by omega), puts_puts, ← written]
  simp only [room]

end Encoder

/-! ### The decoder -/

section Decoder

variable {skipSpaces : Bool}

def strip (skipSpaces : Bool) (input : List Byte) : List Byte :=
  input.filter (fun char => !(skipSpaces && myBase64DecoderSkipSpaces char))

def codeOf (skipSpaces : Bool) (input : List Byte) : List Byte :=
  (strip skipSpaces input).takeWhile isBase64Char

def paddingOf (skipSpaces : Bool) (input : List Byte) : List Byte :=
  (strip skipSpaces input).dropWhile isBase64Char

theorem not_code_of_space {char : Byte} (space : myBase64DecoderSkipSpaces char = true) :
    char ≠ padding ∧ isBase64Char char = false := by
  revert char
  decide +kernel

theorem strip_cons_space {char : Byte} (space : (skipSpaces && myBase64DecoderSkipSpaces char) = true)
    (rest : List Byte) : strip skipSpaces (char :: rest) = strip skipSpaces rest :=
  filter_cons_of_neg (by simp [space])

theorem strip_cons {char : Byte} (seen : (skipSpaces && myBase64DecoderSkipSpaces char) = false)
    (rest : List Byte) : strip skipSpaces (char :: rest) = char :: strip skipSpaces rest :=
  filter_cons_of_pos (by simp [seen])

theorem codeOf_append_paddingOf (skipSpaces : Bool) (input : List Byte) :
    codeOf skipSpaces input ++ paddingOf skipSpaces input = strip skipSpaces input :=
  takeWhile_append_dropWhile

theorem Scan.take_collects (scan : Scan) (few : scan.group.length < 4) (char : Byte) (code : List Byte) :
    (scan.take char).group.length < 4 ∧ (scan.take char).skippedSpaces = scan.skippedSpaces ∧
      leftover ((scan.take char).group ++ code) = leftover (scan.group ++ char :: code) ∧
      (scan.take char).call.puts (wholeBytes ((scan.take char).group ++ code)) =
        scan.call.puts (wholeBytes (scan.group ++ char :: code)) := by
  obtain ⟨group, skipped, call⟩ := scan
  match group, few with
  | [], _ | [_], _ | [_, _], _ => simp [Scan.take]
  | [a, b, c], _ => simp [Scan.take, leftover, wholeBytes, uint8Array3_eq]

theorem collected_of_lt {group : List Byte} (few : group.length < 4) :
    leftover group = group ∧ wholeBytes group = [] := by
  match group, few with
  | [], _ | [_], _ | [_, _], _ | [_, _, _], _ => exact ⟨rfl, rfl⟩

/-- The first loop takes in the code and stops at what stands behind it. -/
theorem decodeLoop_scans (skipSpaces : Bool) (input : List Byte) (scan : Scan) (few : scan.group.length < 4) :
    ((∀ char ∈ (paddingOf skipSpaces input).head?, char = padding) ∧ ∃ spaces rest, decodeLoop skipSpaces input scan =
            (⟨leftover (scan.group ++ codeOf skipSpaces input), scan.skippedSpaces + spaces,
              scan.call.puts (wholeBytes (scan.group ++ codeOf skipSpaces input))⟩, rest) ∧
          strip skipSpaces rest = paddingOf skipSpaces input ∧
          input.length = (codeOf skipSpaces input).length + spaces + rest.length) ∨
      ((∃ char ∈ (paddingOf skipSpaces input).head?, char ≠ padding) ∧ (decodeLoop skipSpaces input scan).1.call =
          (scan.call.puts (wholeBytes (scan.group ++ codeOf skipSpaces input))).fail .invalidArgument) := by
  have stopped := collected_of_lt few
  induction input generalizing scan with
  | nil =>
    refine .inl ⟨by simp [paddingOf, strip], 0, [], ?_, rfl, rfl⟩
    rw [decodeLoop, codeOf, strip, filter_nil, takeWhile_nil, append_nil, stopped.1, stopped.2, puts_nil]
    rfl
  | cons char rest ih =>
    rw [decodeLoop]
    by_cases space : (skipSpaces && myBase64DecoderSkipSpaces char) = true
    · have apart := not_code_of_space (Bool.and_eq_true_iff.mp space).2
      rw [if_neg apart.1, if_pos apart.2, if_pos space, codeOf, paddingOf, strip_cons_space space]
      rcases ih { scan with skippedSpaces := scan.skippedSpaces + 1 } few stopped with
        ⟨ends, spaces, left, runs, behind, length⟩ | ⟨bad, fails⟩
      · refine .inl ⟨ends, spaces + 1, left, ?_, behind, ?_⟩
        · rw [runs, Nat.add_assoc, Nat.add_comm 1]
          rfl
        · rw [length_cons, length, codeOf]
          omega
      · exact .inr ⟨bad, fails⟩
    have seen := Bool.eq_false_of_not_eq_true space
    rw [codeOf, paddingOf, strip_cons seen]
    by_cases code : isBase64Char char = true
    · have apart : char ≠ padding := by
        rintro rfl
        exact absurd code (by decide)
      obtain ⟨few', spaces', left', whole⟩ := scan.take_collects few char (codeOf skipSpaces rest)
      rw [if_neg apart, if_neg (by simp [code]), takeWhile_cons_of_pos code, dropWhile_cons_of_pos code]
      rw [codeOf] at left' whole
      rw [← left', ← whole]
      rcases ih (scan.take char) few' (collected_of_lt few') with
        ⟨ends, spaces, left, runs, behind, length⟩ | ⟨bad, fails⟩
      · refine .inl ⟨ends, spaces, left, ?_, behind, ?_⟩
        · rw [runs, spaces']
          rfl
        · rw [length_cons, length_cons, length, codeOf]
          omega
      · exact .inr ⟨bad, fails⟩
    rw [takeWhile_cons_of_neg code, dropWhile_cons_of_neg code, append_nil, stopped.1, stopped.2, puts_nil, head?_cons]
    by_cases ends : char = padding
    · subst ends
      exact .inl ⟨by simp, 0, padding :: rest, if_pos rfl, strip_cons seen rest, by simp⟩
    · rw [if_neg ends, if_pos (Bool.eq_false_of_not_eq_true code), if_neg space]
      exact .inr ⟨⟨char, rfl, ends⟩, rfl⟩

theorem paddingLoop_eq (rest : List Byte) (skippedSpaces : Nat) : paddingLoop skipSpaces rest skippedSpaces =
      if ∀ char ∈ strip skipSpaces rest, char = padding then
        some (skippedSpaces + (rest.length - (strip skipSpaces rest).length))
      else none := by
  induction rest generalizing skippedSpaces with
  | nil => simp [paddingLoop, strip]
  | cons char rest ih =>
    have shorter : (strip skipSpaces rest).length ≤ rest.length := length_filter_le _ rest
    rw [paddingLoop]
    by_cases space : (skipSpaces && myBase64DecoderSkipSpaces char) = true
    · rw [if_pos space, ih, strip_cons_space space, length_cons]
      split_ifs
      · congr 1
        omega
      · rfl
    have seen := Bool.eq_false_of_not_eq_true space
    simp only [if_neg space, strip_cons seen, forall_mem_cons]
    grind

/-- What makes a text well formed: only `=` behind its code, at most two of them, and with
`skip_spaces` a whole number of groups. -/
def WellFormed (skipSpaces : Bool) (input : List Byte) : Prop :=
  (∀ char ∈ paddingOf skipSpaces input, char = padding) ∧ (paddingOf skipSpaces input).length ≤ 2 ∧
    (skipSpaces = true → (strip skipSpaces input).length % 4 = 0)

/-- The test of the lengths, given that the first loop skipped `spaces` and left `rest`. -/
theorem not_wellFormed_iff {spaces : Nat} {rest : List Byte}
    (behind : strip skipSpaces rest = paddingOf skipSpaces input)
    (length : input.length = (codeOf skipSpaces input).length + spaces + rest.length)
    (only : ∀ char ∈ paddingOf skipSpaces input, char = padding) :
    let validLen := input.length - (spaces + (rest.length - (paddingOf skipSpaces input).length))
    ¬WellFormed skipSpaces input ↔
      skipSpaces = false ∧ input.length - rest.length + 3 ≤ input.length ∨ skipSpaces = true ∧
          (validLen % 4 ≠ 0 ∨ input.length - rest.length - spaces + 3 ≤ validLen) := by
  have parts := congrArg List.length (codeOf_append_paddingOf skipSpaces input)
  have shorter : (strip skipSpaces rest).length ≤ rest.length := length_filter_le _ rest
  rw [length_append] at parts
  rw [behind] at shorter
  rw [WellFormed, ← parts]
  cases skipSpaces with
  | false =>
    have all (chars : List Byte) : strip false chars = chars := by simp [strip]
    rw [all] at behind parts
    grind
  | true =>
    simp only [true_and, reduceCtorEq, false_and, false_or, true_implies]
    grind

theorem decode_eq (some : ¬(skipSpaces && input.all myBase64DecoderSkipSpaces) = true)
    (room : (if input.length / 4 * 3 ≠ 0 then 1 else 0) + pos ≤ outputLen) :
    (WellFormed skipSpaces input ∧ decode input outputLen pos skipSpaces =
        decodeTail outputLen skipSpaces (leftover (codeOf skipSpaces input))
          ((Call.start pos).puts (wholeBytes (codeOf skipSpaces input)))) ∨
      (¬WellFormed skipSpaces input ∧ decode input outputLen pos skipSpaces =
        ((Call.start pos).puts (wholeBytes (codeOf skipSpaces input))).fail .invalidArgument) := by
  rw [decode, if_neg some, if_neg (Nat.not_lt.mpr room)]
  rcases decodeLoop_scans skipSpaces input ⟨[], 0, Call.start pos⟩ (Nat.zero_lt_succ 3) with
    ⟨-, spaces, rest, runs, behind, length⟩ | ⟨⟨char, first, bad⟩, fails⟩
  · have fine : ((Call.start pos).puts (wholeBytes (codeOf skipSpaces input))).ret = none := rfl
    simp only [runs, nil_append, Nat.zero_add, decodeRest, fine, ne_eq, not_true_eq_false,
      if_false, paddingLoop_eq, behind]
    by_cases only : ∀ char ∈ paddingOf skipSpaces input, char = padding
    · have lengths := not_wellFormed_iff behind length only
      grind
    · rw [if_neg only]
      exact .inr ⟨fun formed => only formed.1, rfl⟩
  · have refused : ¬WellFormed skipSpaces input := fun formed => bad (formed.1 char (mem_of_mem_head? first))
    refine .inr ⟨refused, ?_⟩
    change decodeRest _ _ _ (decodeLoop skipSpaces input ⟨[], 0, Call.start pos⟩).1 _ = _
    rw [decodeRest, if_pos (by rw [fails]; simp), fails]
    rfl

theorem strip_false (input : List Byte) : strip false input = input := by
  simp [strip]

theorem strip_eq_nil_iff : strip true input = [] ↔ input.all myBase64DecoderSkipSpaces = true := by
  simp [strip, filter_eq_nil_iff]

theorem decodeTail_eq (call : Call) (code : List Byte) :
    decodeTail outputLen skipSpaces (leftover code) (call.puts (wholeBytes code)) =
      if code.length % 4 = 0 ∨ call.pos + (bytes code).length < outputLen then
        call.puts (bytes code)
      else (call.puts (wholeBytes code)).fail (if skipSpaces then .invalidArgument else .bufNotEnough) := by
  rw [decodeTail, uint8Array3_eq, puts_puts, puts_pos, ← bytes_eq, bytes_length, wholeBytes_length, leftover_length]
  by_cases none : code.length % 4 = 0
  · have last : bytes code = wholeBytes code := by
      rw [bytes_eq, leftover_length, none, Nat.zero_sub, take_zero, append_nil]
    rw [if_neg (by omega), if_pos (.inl none), last]
  grind

/-- A text that shows the padded symbols of `plain` when its spaces are taken away is read back. -/
theorem decode_padded {plain : List Byte} (seen : strip skipSpaces input = padded plain)
    (enough : plain.length + 3 ≤ outputLen) :
    decode input outputLen 0 skipSpaces = ⟨none, plain, plain.length⟩ := by
  have stops : ¬isBase64Char padding = true := by decide
  have code : codeOf skipSpaces input = symbols plain := by
    rw [codeOf, seen, padded, takeWhile_append_of_pos (isBase64Char_symbols plain),
      takeWhile_replicate, if_neg stops, append_nil]
  have behind : paddingOf skipSpaces input = replicate ((3 - plain.length % 3) % 3) padding := by
    rw [paddingOf, seen, padded, dropWhile_append_of_pos (isBase64Char_symbols plain),
      dropWhile_replicate, if_neg stops]
  by_cases none : (skipSpaces && input.all myBase64DecoderSkipSpaces) = true
  · rw [decode, if_pos none]
    obtain ⟨rfl, all⟩ := Bool.and_eq_true_iff.mp none
    have length := congrArg List.length ((strip_eq_nil_iff.mpr all).symm.trans seen)
    rw [padded_length, length_nil] at length
    obtain rfl : plain = [] := length_eq_zero_iff.mp (by omega)
    rfl
  have formed : WellFormed skipSpaces input := by
    refine ⟨?_, ?_, ?_⟩
    · grind
    · rw [behind, length_replicate]
      omega
    · intro _
      rw [seen, padded_length]
      omega
  have room : (if input.length / 4 * 3 ≠ 0 then 1 else 0) + 0 ≤ outputLen := by
    split_ifs <;> omega
  have fits : (Call.start 0).pos + plain.length < outputLen := by
    rw [start_pos]
    omega
  rcases decode_eq none room with ⟨-, decoded⟩ | ⟨wrong, -⟩
  · rw [decoded, code, decodeTail_eq, bytes_symbols, if_pos (.inr fits)]
    simp [puts, Call.start]
  · exact absurd formed wrong

end Decoder

/-! ### Results -/

def whitespace : List Byte := [9, 10, 11, 12, 13, 32, 160]

theorem myBase64DecoderSkipSpaces_iff (char : Byte) : myBase64DecoderSkipSpaces char = true ↔ char ∈ whitespace := by
  revert char
  decide +kernel

/-- A character other than `=` and white space behind the first `=`, more than two `=`, or a number
of characters other than white space that is no multiple of four. -/
def Misplaced (text : List Byte) : Prop :=
  (∃ before after, text = before ++ padding :: after ∧ padding ∉ before ∧
      ∃ char ∈ after, char ≠ padding ∧ char ∉ whitespace) ∨
    2 < text.count padding ∨ ¬4 ∣ (text.filter (· ∉ whitespace)).length

theorem strip_true (input : List Byte) : strip true input = input.filter (· ∉ whitespace) := by
  apply filter_congr
  intro char _
  rw [Bool.true_and, Bool.eq_iff_iff, Bool.not_eq_true', Bool.eq_false_iff, ne_eq,
    myBase64DecoderSkipSpaces_iff, decide_eq_true_iff]

theorem paddingOf_append (skipSpaces : Bool) (before after : List Byte) :
    strip skipSpaces after <:+ paddingOf skipSpaces (before ++ padding :: after) := by
  have stops : ¬isBase64Char padding = true := by decide
  have seen : (skipSpaces && myBase64DecoderSkipSpaces padding) = false := by
    rw [show myBase64DecoderSkipSpaces padding = false by decide, Bool.and_false]
  have parts : strip skipSpaces (before ++ padding :: after) =
      strip skipSpaces before ++ padding :: strip skipSpaces after := by
    rw [← strip_cons seen]
    exact filter_append before (padding :: after)
  rw [paddingOf, parts, dropWhile_append, dropWhile_cons_of_neg stops]
  split_ifs
  · exact suffix_cons _ _
  · exact (suffix_cons _ _).trans (suffix_append _ _)

theorem count_le_paddingOf (input : List Byte) : input.count padding ≤ (paddingOf true input).length := by
  have none : (codeOf true input).count padding = 0 := by
    rw [count_eq_zero]
    intro member
    exact absurd (mem_takeWhile_imp member) (by decide)
  calc
    _ = (strip true input).count padding := by
      rw [strip, count_filter]
      decide
    _ = (paddingOf true input).count padding := by
      rw [← codeOf_append_paddingOf, count_append, none, Nat.zero_add]
    _ ≤ (paddingOf true input).length := count_le_length

theorem not_wellFormed_of_misplaced (misplaced : Misplaced input) : ¬WellFormed true input := by
  rintro ⟨only, few, groups⟩
  rcases misplaced with ⟨before, after, rfl, -, char, member, other, seen⟩ | many | odd
  · have kept : char ∈ strip true after := by
      rw [strip_true, mem_filter, decide_eq_true_iff]
      exact ⟨member, seen⟩
    exact other (only char ((paddingOf_append true before after).mem kept))
  · have bound := count_le_paddingOf input
    omega
  · have whole := groups rfl
    rw [strip_true] at whole
    exact odd (Nat.dvd_of_mod_eq_zero whole)

theorem wellFormed_of_spaces (all : input.all myBase64DecoderSkipSpaces = true) :
    WellFormed true input := by
  have none := strip_eq_nil_iff.mpr all
  simp [WellFormed, paddingOf, none]

theorem decode_refuses (wrong : ¬WellFormed true input) : (decode input outputLen pos true).ret ≠ none := by
  have some : ¬(true && input.all myBase64DecoderSkipSpaces) = true := fun all => wrong (wellFormed_of_spaces all)
  by_cases room : (if input.length / 4 * 3 ≠ 0 then 1 else 0) + pos ≤ outputLen
  · rcases decode_eq some room with ⟨formed, -⟩ | ⟨-, refused⟩
    · exact absurd formed wrong
    · simp [refused]
  · rw [decode, if_neg some, if_pos (Nat.not_le.mp room)]
    simp

theorem lineBreaks_le {wrap : Nat} (whole : 4 ∣ wrap) (input : List Byte) :
    lineBreaks wrap input ≤ ((padded input).length - 1) / 4 := by
  rcases Nat.eq_zero_or_pos wrap with rfl | positive
  · simp [lineBreaks]
  · exact Nat.div_le_div_left (Nat.le_of_dvd positive whole) (by decide)

theorem strip_text (wrap : Nat) (input : List Byte) : strip true (text wrap input) = padded input := by
  rw [strip, text, filter_breakLines (by decide), filter_eq_self]
  intro char member
  rcases mem_append.mp member with code | filled
  · have seen : ¬myBase64DecoderSkipSpaces char = true := by
      intro space
      have other := (not_code_of_space space).2
      rw [isBase64Char_symbols input char code] at other
      cases other
    simp [seen]
  · rw [eq_of_mem_replicate filled]
    decide

/-- Behind any wrapping that is a multiple of four `decode` with `skip_spaces` gives the encoded
bytes back, without wrapping also `decode` without it; and with `skip_spaces` it refuses every text
with misplaced padding. -/
theorem roundTrip_and_refusal : (∀ (input : List Byte) (wrap encodeLen decodeLen : Nat), 4 ∣ wrap →
      2 * input.length + 8 ≤ encodeLen → input.length + 3 ≤ decodeLen →
      ∃ encoded, encode input encodeLen 0 wrap = ⟨none, encoded, encoded.length⟩ ∧
        encoded.length ≤ encodeLen ∧
        decode encoded decodeLen 0 true = ⟨none, input, input.length⟩ ∧
        (wrap = 0 → decode encoded decodeLen 0 false = ⟨none, input, input.length⟩)) ∧
    ∀ (text : List Byte) (outputLen pos : Nat), Misplaced text →
      (decode text outputLen pos true).ret ≠ none := by
  constructor
  · intro input wrap encodeLen decodeLen whole encodeRoom decodeRoom
    have breaks := lineBreaks_le whole input
    have length := text_length wrap input
    rw [padded_length] at breaks length
    have fits : 0 + (text wrap input).length ≤ encodeLen := by omega
    have rounds : 0 + input.length / 3 * 4 ≤ encodeLen := by omega
    obtain ⟨front, -, written⟩ := encode_eq whole rounds
    rw [if_pos (.inr fits)] at written
    refine ⟨text wrap input, ?_, by omega, decode_padded (strip_text wrap input) decodeRoom, ?_⟩
    · simpa [puts, Call.start] using written
    · rintro rfl
      exact decode_padded ((strip_false _).trans (breakLines_zero 0 _)) decodeRoom
  · intro text outputLen pos misplaced
    exact decode_refuses (not_wellFormed_of_misplaced misplaced)

/-- The five bytes of `Hello` in lines of one group, and a text that goes on behind its padding. -/
theorem hello_roundTrip_and_refusal :
    (∃ encoded, encode [72, 101, 108, 108, 111] 18 0 4 = ⟨none, encoded, encoded.length⟩ ∧
      encoded.length ≤ 18 ∧
      decode encoded 8 0 true = ⟨none, [72, 101, 108, 108, 111], 5⟩ ∧
      (4 = 0 → decode encoded 8 0 false = ⟨none, [72, 101, 108, 108, 111], 5⟩)) ∧
    (decode [65, 61, 65, 65] 8 0 true).ret ≠ none :=
  ⟨roundTrip_and_refusal.1 [72, 101, 108, 108, 111] 4 18 8 (by decide) (by decide) (by decide),
    roundTrip_and_refusal.2 [65, 61, 65, 65] 8 0
      (.inl ⟨[65], [65, 65], rfl, by decide, 65, by decide, by decide, by decide⟩)⟩

end IMBridge.Encode.Base64
