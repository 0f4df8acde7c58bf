import Mathlib.Data.List.Basic
import Mathlib.Tactic.IntervalCases
import IMBridge.Encode.Base64

/-!
What a Base64 text is. Three bytes are a number of 24 bits, and its four digits of six bits are the
characters that stand for them. A last group of fewer bytes has one digit more than bytes and is
filled up with `=`. Lines end behind every `wrap` characters, but not at the end of the text.
-/

namespace IMBridge.Encode.Base64

open List BitVec Nat
def sextets (value : Nat) : List Nat :=
  [value / 2 ^ 18, value / 2 ^ 12 % 64, value / 2 ^ 6 % 64, value % 64]

def symbol (sextet : Nat) : Byte := base64Char (BitVec.ofNat 8 sextet)

def value (a b c : Byte) : Nat := a.toNat * 2 ^ 16 + b.toNat * 2 ^ 8 + c.toNat

def symbols : List Byte → List Byte
  | a :: b :: c :: rest => (sextets (value a b c)).map symbol ++ symbols rest
  | [a, b] => ((sextets (value a b 0)).take 3).map symbol
  | [a] => ((sextets (value a 0 0)).take 2).map symbol
  | [] => []

variable (input : List Byte)

def padded : List Byte := symbols input ++ List.replicate ((3 - input.length % 3) % 3) padding

/-- What ends a line behind `column` characters of a text that goes on with `rest`. -/
def lineEnd (wrap column : Nat) (rest : List Byte) : List Byte :=
  if rest ≠ [] ∧ column % wrap = 0 then [newLine] else []

/-- Line breaks in a text of which `column` characters stand in front of `chars`. -/
def breakLines (wrap column : Nat) : List Byte → List Byte
  | [] => []
  | char :: rest => char :: (lineEnd wrap (column + 1) rest ++ breakLines wrap (column + 1) rest)

def text (wrap : Nat) (input : List Byte) : List Byte := breakLines wrap 0 (padded input)

def octets (value : Nat) : List Byte :=
  [BitVec.ofNat 8 (value / 2 ^ 16), BitVec.ofNat 8 (value / 2 ^ 8), BitVec.ofNat 8 value]

def digits (group : List Byte) : Nat :=
  let digit (k : Nat) := (base64Values (group.getD k 0)).toNat
  digit 0 * 2 ^ 18 + digit 1 * 2 ^ 12 + digit 2 * 2 ^ 6 + digit 3

def bytes : List Byte → List Byte
  | a :: b :: c :: d :: rest => octets (digits [a, b, c, d]) ++ bytes rest
  | group => (octets (digits group)).take (group.length - 1)

/-- The bytes of whole groups, and the symbols behind them. -/
def wholeBytes : List Byte → List Byte
  | a :: b :: c :: d :: rest => octets (digits [a, b, c, d]) ++ wholeBytes rest
  | _ => []

def leftover : List Byte → List Byte
  | _ :: _ :: _ :: _ :: rest => leftover rest
  | group => group

/-! ### One group -/

theorem outputIdxes_eq (a b c : Byte) : outputIdxes a b c = (sextets (value a b c)).map (BitVec.ofNat 8) := by
  have masks : ∀ x : Byte, ((x &&& 0xfc) >>> 2).toNat = x.toNat / 4 ∧
      ((x &&& 0x03) <<< 4).toNat = x.toNat % 4 * 16 ∧ ((x &&& 0xf0) >>> 4).toNat = x.toNat / 16 ∧
      ((x &&& 0x0f) <<< 2).toNat = x.toNat % 16 * 4 ∧ ((x &&& 0xc0) >>> 6).toNat = x.toNat / 64 ∧
      (x &&& 0x3f).toNat = x.toNat % 64 := by
    decide +kernel
  obtain ⟨sixHigh, twoLow, -⟩ := masks a
  obtain ⟨-, -, fourHigh, fourLow, -⟩ := masks b
  obtain ⟨-, -, -, -, twoHigh, sixLow⟩ := masks c
  simp only [outputIdxes, sextets, value, map_cons, map_nil, List.cons.injEq, and_true]
  refine ⟨?_, ?_, ?_, ?_⟩ <;> apply eq_of_toNat_eq <;>
    simp only [toNat_add, toNat_ofNat, sixHigh, twoLow, fourHigh, fourLow, twoHigh, sixLow] <;> omega

theorem outputIdxes_chars (a b c : Byte) : (outputIdxes a b c).map base64Char = (sextets (value a b c)).map symbol := by
  rw [outputIdxes_eq, map_map]
  rfl

theorem base64Values_lt (char : Byte) : (base64Values char).toNat < 64 := by
  revert char
  decide +kernel

theorem base64Values_symbol {sextet : Nat} (small : sextet < 64) : (base64Values (symbol sextet)).toNat = sextet := by
  revert sextet
  decide +kernel

theorem isBase64Char_symbol {sextet : Nat} (small : sextet < 64) : isBase64Char (symbol sextet) = true := by
  revert sextet
  decide +kernel

theorem uint8Array3_eq (group : List Byte) : uint8Array3 group = octets (digits group) := by
  have masks : ∀ x : Byte, (x <<< 2).toNat = x.toNat * 4 % 256 ∧ ((x &&& 0x30) >>> 4).toNat = x.toNat / 16 % 4 ∧
      ((x &&& 0x0f) <<< 4).toNat = x.toNat % 16 * 16 ∧
      ((x &&& 0x3c) >>> 2).toNat = x.toNat / 4 % 16 ∧
      ((x &&& 0x03) <<< 6).toNat = x.toNat % 4 * 64 := by
    decide +kernel
  have bound (k : Nat) := base64Values_lt (group.getD k 0)
  have second := bound 1
  have third := bound 2
  have fourth := bound 3
  simp only [uint8Array3, octets, digits, List.cons.injEq, and_true]
  refine ⟨?_, ?_, ?_⟩ <;> apply eq_of_toNat_eq <;>
    simp only [toNat_add, toNat_ofNat, masks] <;> omega

theorem octets_value (a b c : Byte) : octets (value a b c) = [a, b, c] := by
  simp only [octets, value, List.cons.injEq, and_true]
  refine ⟨?_, ?_, ?_⟩ <;> apply eq_of_toNat_eq <;> rw [toNat_ofNat] <;> omega

theorem value_lt (a b c : Byte) : value a b c < 2 ^ 24 := by
  unfold value
  omega

theorem sextets_lt {number sextet : Nat} (small : number < 2 ^ 24) (member : sextet ∈ sextets number) :
    sextet < 64 := by
  simp only [sextets, mem_cons, not_mem_nil, or_false] at member
  omega

/-- The digits of a number are read back, also when those that are missing at the end are zero. -/
theorem digits_symbols {number : Nat} (count : Nat) (few : count ≤ 4) (small : number < 2 ^ 24)
    (whole : number % 2 ^ (6 * (4 - count)) = 0) :
    digits (((sextets number).take count).map symbol) = number := by
  have zero : (base64Values 0).toNat = 0 := by decide +kernel
  have first : number / 262144 < 64 := by omega
  have later (shift : Nat) : number / shift % 64 < 64 := mod_lt _ (by decide)
  have last : number % 64 < 64 := mod_lt _ (by decide)
  interval_cases count <;>
    simp only [digits, sextets, take_succ_cons, take_zero, map_cons, map_nil,
      List.getD_cons_zero, List.getD_cons_succ, List.getD_nil, zero, base64Values_symbol first,
      base64Values_symbol (later _), base64Values_symbol last, Nat.reduceSub, Nat.reduceMul,
      Nat.reducePow] at whole small ⊢ <;> omega

theorem bytes_symbols : bytes (symbols input) = input := by
  fun_induction symbols input with
  | case1 a b c rest ih =>
    change octets (digits (((sextets (value a b c)).take 4).map symbol)) ++ bytes (symbols rest) = _
    rw [digits_symbols 4 (by decide) (value_lt a b c) (mod_one _), octets_value, ih]
    rfl
  | case2 a b =>
    have zeros : value a b 0 % 2 ^ (6 * (4 - 3)) = 0 := by simp [value]; omega
    change (octets (digits (((sextets (value a b 0)).take 3).map symbol))).take 2 = _
    rw [digits_symbols 3 (by decide) (value_lt a b 0) zeros, octets_value]
    rfl
  | case3 a =>
    have zeros : value a 0 0 % 2 ^ (6 * (4 - 2)) = 0 := by simp [value]; omega
    change (octets (digits (((sextets (value a 0 0)).take 2).map symbol))).take 1 = _
    rw [digits_symbols 2 (by decide) (value_lt a 0 0) zeros, octets_value]
    rfl
  | case4 => rfl

/-! ### Whole texts -/

variable (code : List Byte)

theorem bytes_eq : bytes code = wholeBytes code ++
    (octets (digits (leftover code))).take ((leftover code).length - 1) := by
  fun_induction bytes code with
  | case1 a b c d rest ih => rw [ih, wholeBytes, leftover, List.append_assoc]
  | case2 group short => rw [wholeBytes, leftover, nil_append] <;> exact short

theorem length_lt_four {group : List Byte}
    (short : ∀ a b c d rest, group = a :: b :: c :: d :: rest → False) : group.length < 4 := by
  by_contra long
  match group, long with
  | a :: b :: c :: d :: rest, _ => exact short a b c d rest rfl
  | [], long | [_], long | [_, _], long | [_, _, _], long => simp at long

theorem wholeBytes_length : (wholeBytes code).length = 3 * (code.length / 4) := by
  fun_induction wholeBytes code with
  | case1 a b c d rest ih =>
    simp only [length_append, ih, octets, length_cons, length_nil]
    omega
  | case2 group short => rw [div_eq_of_lt (length_lt_four short), length_nil]

theorem leftover_length : (leftover code).length = code.length % 4 := by
  fun_induction leftover code with
  | case1 a b c d rest ih =>
    simp only [ih, length_cons]
    omega
  | case2 group short => rw [mod_eq_of_lt (length_lt_four short)]

theorem bytes_length : (bytes code).length = 3 * (code.length / 4) + (code.length % 4 - 1) := by
  have three : (octets (digits (leftover code))).length = 3 := rfl
  rw [bytes_eq, length_append, wholeBytes_length, length_take, three, leftover_length]
  omega

theorem symbols_one (a : Byte) : symbols [a] = [base64Char ((a &&& 0xfc) >>> 2), base64Char ((a &&& 0x03) <<< 4)] := by
  rw [symbols, map_take, ← outputIdxes_chars]
  simp [outputIdxes]

theorem symbols_two (a b : Byte) : symbols [a, b] = [base64Char ((a &&& 0xfc) >>> 2),
      base64Char (((a &&& 0x03) <<< 4) + ((b &&& 0xf0) >>> 4)),
      base64Char ((b &&& 0x0f) <<< 2)] := by
  rw [symbols, map_take, ← outputIdxes_chars]
  simp [outputIdxes]

theorem isBase64Char_symbols : ∀ char ∈ symbols input, isBase64Char char = true := by
  have group {number : Nat} (count : Nat) (small : number < 2 ^ 24) :
      ∀ char ∈ ((sextets number).take count).map symbol, isBase64Char char = true := by
    intro char member
    obtain ⟨sextet, digit, rfl⟩ := mem_map.mp member
    exact isBase64Char_symbol (sextets_lt small (mem_of_mem_take digit))
  fun_induction symbols input with
  | case1 a b c rest ih =>
    rw [forall_mem_append]
    exact ⟨fun char member => group 4 (value_lt a b c) char member, ih⟩
  | case2 a b => exact group 3 (value_lt a b 0)
  | case3 a => exact group 2 (value_lt a 0 0)
  | case4 => simp

theorem padded_cons (a b c : Byte) (rest : List Byte) :
    padded (a :: b :: c :: rest) = (sextets (value a b c)).map symbol ++ padded rest := by
  simp only [padded, symbols, List.length_cons, List.append_assoc, Nat.add_assoc, Nat.reduceAdd, add_mod_right]

theorem padded_length : (padded input).length = (input.length + 2) / 3 * 4 := by
  fun_induction symbols input with
  | case1 a b c rest ih =>
    rw [padded_cons, length_append, ih]
    simp [sextets]
    omega
  | case2 a b => simp [padded, symbols, sextets]
  | case3 a => simp [padded, symbols, sextets]
  | case4 => rfl

section Lines

variable {wrap : Nat}

theorem lineEnd_eq_nil {column : Nat} (within : column % wrap ≠ 0) (rest : List Byte) : lineEnd wrap column rest = [] :=
  if_neg (fun both => within both.2)

theorem lineEnd_padded (column : Nat) (rest : List Byte) :
    lineEnd wrap column (padded rest) = lineEnd wrap column rest := by
  have more : padded rest ≠ [] ↔ rest ≠ [] := by
    rw [← length_pos_iff, ← length_pos_iff, padded_length]
    omega
  simp only [lineEnd, more]

theorem breakLines_zero (column : Nat) (chars : List Byte) : breakLines 0 column chars = chars := by
  induction chars generalizing column with
  | nil => rfl
  | cons char rest ih =>
    rw [breakLines, lineEnd_eq_nil (by simp), ih]
    rfl

/-- Line breaks are gone from a text without its spaces. -/
theorem filter_breakLines {keep : Byte → Bool} (skipped : keep newLine = false) (column : Nat)
    (chars : List Byte) : (breakLines wrap column chars).filter keep = chars.filter keep := by
  induction chars generalizing column with
  | nil => rfl
  | cons char rest ih =>
    have gone : (lineEnd wrap (column + 1) rest).filter keep = [] := by
      unfold lineEnd
      split_ifs <;> simp [skipped]
    rw [breakLines, filter_cons, filter_append, gone, ih, nil_append, ← filter_cons]

theorem breakLines_length (wrap column : Nat) (chars : List Byte) :
    (breakLines wrap column chars).length + column / wrap = chars.length + (column + (chars.length - 1)) / wrap := by
  induction chars generalizing column with
  | nil => simp [breakLines]
  | cons char rest ih =>
    have next := ih (column + 1)
    by_cases last : rest = []
    · simp [last, breakLines, lineEnd]
    have some : 0 < rest.length := length_pos_iff.mpr last
    have same : column + 1 + (rest.length - 1) = column + rest.length := by omega
    have ends : (lineEnd wrap (column + 1) rest).length = if wrap ∣ column + 1 then 1 else 0 := by
      simp only [lineEnd, ne_eq, last, not_false_eq_true, true_and, ← dvd_iff_mod_eq_zero]
      split_ifs <;> rfl
    rw [same, Nat.succ_div, ← ends] at next
    simp only [breakLines, length_cons, length_append, Nat.add_sub_cancel]
    omega

/-- A group of four characters stands in one line. -/
theorem breakLines_group (whole : 4 ∣ wrap) {column : Nat} (start : 4 ∣ column) (p q r s : Byte) (rest : List Byte) :
    breakLines wrap column (p :: q :: r :: s :: rest) =
      [p, q, r, s] ++ (lineEnd wrap (column + 4) rest ++ breakLines wrap (column + 4) rest) := by
  have inside (k : Nat) (within : ¬4 ∣ k) : (column + k) % wrap ≠ 0 := by
    intro full
    exact within ((Nat.dvd_add_right start).mp (whole.trans (Nat.dvd_of_mod_eq_zero full)))
  simp only [breakLines, Nat.add_assoc, Nat.reduceAdd, lineEnd_eq_nil (inside 1 (by decide)),
    lineEnd_eq_nil (inside 2 (by decide)), lineEnd_eq_nil (inside 3 (by decide)), List.nil_append,
    List.cons_append]

end Lines

end IMBridge.Encode.Base64
