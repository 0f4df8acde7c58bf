import IMBridge.Codec.FixedPFor

/-!
A block of `ObSIMDFixedPFor` is read back at whichever width it is packed, and the chosen width
never makes it longer than a block without exceptions.
-/

namespace IMBridge.Codec.ObSIMDFixedPFor

open IMBridge.Lib List BitVec Nat UInt8
open IMBridge.Lib.BitStream

variable {t : UIntT}

/-! ### The width that is chosen -/

variable (values : List (BitVec t.bits))

def wider (b : Nat) : Nat := values.countP fun value => b < gccbits value.toNat

def blockLength (b : Nat) : Nat :=
  if b = maxbits2 values then pad8 (values.length * b) + 1
  else 2 + pad8 values.length + pad8 (wider values b * (maxbits2 values - b)) +
    pad8 (values.length * b)

theorem countP_add_bitCount (i : Nat) :
    wider values i + bitCount values i = values.countP fun value => i ≤ gccbits value.toNat := by
  induction values with
  | nil => rfl
  | cons value values ih =>
    simp only [wider, bitCount, countP_cons, decide_eq_true_eq] at ih ⊢
    split_ifs <;> omega

theorem mostFitLoop_spec (i : Nat) {x ml b : Nat} (below : i ≤ maxbits2 values) (narrow : b ≤ maxbits2 values)
    (counted : x = values.countP fun value => i ≤ gccbits value.toNat)
    (length : ml = blockLength values b) :
    let found := mostFitLoop (bitCount values) values.length (maxbits2 values) i x ml b
    found ≤ maxbits2 values ∧ blockLength values found ≤ ml := by
  induction i generalizing x ml b with
  | zero => exact ⟨narrow, length.ge⟩
  | succ i ih =>
    have next := countP_add_bitCount values i
    have here : x = wider values i := counted
    have cost : 2 + pad8 values.length + pad8 (x * (maxbits2 values - i)) + pad8 (values.length * i) =
        blockLength values i := by
      rw [blockLength, if_neg (by omega), here]
    rw [← here] at next
    simp only [mostFitLoop, cost]
    split
    next less =>
      obtain ⟨inside, shorter⟩ := ih (by omega) (show i ≤ maxbits2 values by omega) next rfl
      exact ⟨inside, shorter.trans less.le⟩
    next => exact ih (by omega) narrow next length

theorem findMostFitBx_spec : (findMostFitBx values).1 ≤ maxbits2 values ∧
      (findMostFitBx values).2 = maxbits2 values - (findMostFitBx values).1 ∧
      blockLength values (findMostFitBx values).1 ≤ pad8 (values.length * maxbits2 values) + 1 := by
  have most : bitCount values (maxbits2 values) = values.countP fun value => maxbits2 values ≤ gccbits value.toNat := by
    apply countP_congr
    intro value member
    have fits := gccbits_le_iff.mpr (fitBits_maxbits2 values value member)
    simp only [decide_eq_true_eq]
    omega
  obtain ⟨narrow, shorter⟩ := mostFitLoop_spec values (maxbits2 values) (Nat.le_refl _)
    (Nat.le_refl _) most (by rw [blockLength, if_pos rfl])
  exact ⟨narrow, rfl, shorter⟩

/-! ### Packing the elements of a block -/

theorem restores_innerBitPacking (packers : Packers) {values : List (BitVec t.bits)} {bit : Nat}
    (narrow : bit ≤ t.bits) (length : values.length = blockSize) (fits : FitBits bit values) :
    Restores (innerBitUnpacking packers t bit) (innerBitPacking packers values bit) values ∧
      (innerBitPacking packers values bit).length = pad8 (blockSize * bit) := by
  rw [innerBitUnpacking, innerBitPacking, pad8, blockSize]
  split
  next =>
    have bytes := packers.length_pack128 narrow length fits
    refine ⟨(restores_takeBytes (by omega)).last ?_, by omega⟩
    rw [packers.unpack_pack128 narrow length fits]
    exact restores_pure values
  next =>
    have restores := restores_scalarBitPacking packers narrow fits
    have bytes := length_scalarBitPacking packers narrow fits
    rw [length] at restores bytes
    exact ⟨restores, bytes⟩

/-! ### The exceptions -/

section Exceptions

variable {b : Nat}

section

variable (narrow : b ≤ t.bits)
include narrow

theorem toNat_mask : (mask t b).toNat = 2 ^ b - 1 := by
  have power : 2 ^ b ≤ 2 ^ t.bits := Nat.pow_le_pow_right (by decide) narrow
  have pos := Nat.two_pow_pos b
  rw [mask, BitVec.toNat_ofNat, Nat.mod_eq_of_lt (by omega)]

section

variable (value : BitVec t.bits)

theorem mask_lt_iff : mask t b < value ↔ 2 ^ b ≤ value.toNat := by
  have pos := Nat.two_pow_pos b
  rw [lt_def, toNat_mask narrow]
  omega

theorem mask_lt_iff_gccbits : mask t b < value ↔ b < gccbits value.toNat := by
  have least := gccbits_le_iff (v := value.toNat) (n := b)
  rw [mask_lt_iff narrow]
  omega

theorem toNat_and_mask : (value &&& mask t b).toNat = value.toNat % 2 ^ b := by
  rw [toNat_and, toNat_mask narrow, and_two_pow_sub_one_eq_mod]

theorem and_mask_or : value &&& mask t b ||| (value >>> b) <<< b = value := by
  apply BitVec.eq_of_toNat_eq
  have low := mod_lt value.toNat (Nat.two_pow_pos b)
  have whole := div_add_mod value.toNat (2 ^ b)
  have above : value.toNat / 2 ^ b * 2 ^ b < 2 ^ t.bits := by
    rw [Nat.mul_comm]
    omega
  rw [toNat_or, toNat_and_mask narrow, toNat_shiftLeft, toNat_ushiftRight,
    Nat.shiftRight_eq_div_pow, Nat.shiftLeft_eq, Nat.mod_eq_of_lt above, Nat.lor_comm,
    ← Nat.shiftLeft_eq, ← Nat.shiftLeft_add_eq_or_of_lt low, Nat.shiftLeft_eq, Nat.mul_comm, whole]

end

theorem and_mask_of_not_lt {value : BitVec t.bits} (small : ¬mask t b < value) : value &&& mask t b = value := by
  rw [mask_lt_iff narrow, Nat.not_le] at small
  apply eq_of_toNat_eq
  rw [toNat_and_mask narrow, mod_eq_of_lt small]

end

theorem map_getD_range (values : List (BitVec t.bits)) :
    (range values.length).map (fun i => values.getD i 0) = values := by
  apply ext_getElem
  · simp
  · intro k left right
    simp [right]

/-- What the mask cuts off the elements above it. -/
def exceptions (b : Nat) (values : List (BitVec t.bits)) : List (BitVec t.bits) :=
  (values.filter (mask t b < ·)).map fun value : BitVec t.bits => value >>> b

theorem exceptions_append (xs ys : List (BitVec t.bits)) :
    exceptions b (xs ++ ys) = exceptions b xs ++ exceptions b ys := by
  simp [exceptions]

theorem map_misses (values : List (BitVec t.bits)) (b : Nat) :
    (misses values b).map (fun c => values.getD c 0 >>> b) = exceptions b values := by
  conv_rhs => rw [exceptions, ← map_getD_range values, filter_map, map_map]
  rfl

/-- A word of the bitmap as it is written. -/
def bitmap (b : Nat) (values : List (BitVec t.bits)) (k : Nat) : List UInt8 :=
  leBytes 8 (xmap (misses values b) k)

theorem length_bitmap (values : List (BitVec t.bits)) (k : Nat) : (bitmap b values k).length = 8 := length_leBytes ..

variable {values : List (BitVec t.bits)}

theorem mem_misses {c : Nat} : c ∈ misses values b ↔ ∃ inside : c < values.length, mask t b < values.get ⟨c, inside⟩ := by
  rw [misses, mem_filter, mem_range]
  grind

theorem testBit_xmap (miss : List Nat) (k : Nat) {j : Nat} (inside : j < 64) :
    (xmap miss k).testBit j = decide (64 * k + j ∈ miss) := by
  have general : ∀ words : Nat → Nat, ((miss.foldl (fun words c => Function.update words (c >>> 6)
        (words (c >>> 6) ||| 1 <<< (c &&& 0x3f))) words) k).testBit j =
      ((words k).testBit j || decide (64 * k + j ∈ miss)) := by
    induction miss with
    | nil => simp
    | cons c miss ih =>
      intro words
      have place : c &&& 0x3f = c % 64 := and_two_pow_sub_one_eq_mod c 6
      have word : c >>> 6 = c / 64 := shiftRight_eq_div_pow c 6
      rw [foldl_cons, ih, place, word]
      simp only [mem_cons, Bool.decide_or]
      by_cases here : k = c / 64
      · subst here
        rw [Function.update_self, testBit_or, one_shiftLeft, testBit_two_pow, Bool.or_assoc]
        grind
      grind
  rw [xmap, general, zero_testBit, Bool.false_or]

def Marks (b word : Nat) (values : List (BitVec t.bits)) : Prop := ∀ k (inside : k < values.length),
    word.testBit k = decide (mask t b < values.get ⟨k, inside⟩)

theorem patch_restores (narrow : b ≤ t.bits) {word : Nat} (i : Nat)
    (marks : ∀ k (inside : k < values.length), word.testBit (i + k) = decide (mask t b < values.get ⟨k, inside⟩))
    (later : List (BitVec t.bits)) :
    patch word b i (values.map (· &&& mask t b)) (exceptions b values ++ later) = (values, later) := by
  induction values generalizing i with
  | nil => rfl
  | cons value values ih =>
    have first := marks 0 (succ_pos _)
    have rest := ih (i + 1) fun k inside => by
      rw [Nat.add_assoc, Nat.add_comm 1 k]
      exact marks (k + 1) (succ_lt_succ inside)
    simp only [Nat.add_zero, get_eq_getElem, getElem_cons_zero] at first
    by_cases wide : mask t b < value
    · have more : exceptions b (value :: values) = value >>> b :: exceptions b values := by
        simp [exceptions, wide]
      rw [more, map_cons, patch, if_pos (by rw [first]; simpa using wide)]
      simp only [List.cons_append, tail_cons, headD_cons, rest, and_mask_or narrow]
    · have none : exceptions b (value :: values) = exceptions b values := by simp [exceptions, wide]
      rw [none, map_cons, patch, if_neg (by rw [first]; simpa using wide)]
      simp only [rest, and_mask_of_not_lt narrow wide]

theorem ones_of_marks {word : Nat} (marks : Marks b word values) :
    PopCount.ones values.length word = values.countP fun value => mask t b < value := by
  rw [PopCount.ones]
  conv_rhs => rw [← map_getD_range values, countP_map]
  apply countP_congr
  intro k member
  have inside := mem_range.mp member
  have bit := marks k inside
  simp only [get_eq_getElem] at bit
  simp [bit, inside]

/-- The two words of the bitmap as they are read, each marking its half of the block. -/
theorem marks_halves (length : values.length = blockSize) : Marks b (leNat (bitmap b values 0)) (values.take 64) ∧
      Marks b (leNat (bitmap b values 1)) (values.drop 64) := by
  have size : values.length = 128 := length
  have bit : ∀ k {j : Nat}, j < 64 → (inside : 64 * k + j < values.length) → (leNat (bitmap b values k)).testBit j =
        decide (mask t b < values.get ⟨64 * k + j, inside⟩) := by
    intro k j small inside
    rw [bitmap, leNat_leBytes, testBit_mod_two_pow, testBit_xmap _ _ small]
    have member : 64 * k + j ∈ misses values b ↔ mask t b < values.get ⟨64 * k + j, inside⟩ := by
      rw [mem_misses]
      grind
    simp [small, member]
  constructor
  · intro k inside
    grind
  · intro k inside
    grind

theorem popcnt64_halves (length : values.length = blockSize) :
    popcnt64 (leNat (bitmap b values 0)) + popcnt64 (leNat (bitmap b values 1)) =
      values.countP fun value => mask t b < value := by
  have size : values.length = 128 := length
  obtain ⟨first, second⟩ := marks_halves (b := b) length
  have left := ones_of_marks first
  have right := ones_of_marks second
  rw [length_take, size] at left
  rw [length_drop, size] at right
  conv_rhs => rw [← take_append_drop 64 values, countP_append, ← left, ← right]
  rfl

theorem patch_halves (narrow : b ≤ t.bits) (length : values.length = blockSize) :
    let first := patch (leNat (bitmap b values 0)) b 0 ((values.map (· &&& mask t b)).take 64) (exceptions b values)
    first.1 ++ (patch (leNat (bitmap b values 1)) b 0 ((values.map (· &&& mask t b)).drop 64) first.2).1 = values := by
  obtain ⟨first, second⟩ := marks_halves (b := b) length
  have split : exceptions b values = exceptions b (values.take 64) ++ (exceptions b (values.drop 64) ++ []) := by
    rw [append_nil, ← exceptions_append, take_append_drop]
  have left := patch_restores narrow 0 (fun k inside => by rw [Nat.zero_add]; exact first k inside)
    (exceptions b (values.drop 64) ++ [])
  have right := patch_restores narrow 0 (fun k inside => by rw [Nat.zero_add]; exact second k inside) []
  simp only [← map_take, ← map_drop, split, left, right, take_append_drop]

end Exceptions

/-! ### Whole blocks -/

section Block

variable (packers : Packers) {values : List (BitVec t.bits)}

theorem restores_plain (length : values.length = blockSize) {b : Nat} (narrow : b ≤ t.bits) (fits : FitBits b values) :
    Restores (innerDoDecode packers t) ([ofNat b] ++ innerDoEncode packers values b 0) values ∧
      ([ofNat b] ++ innerDoEncode packers values b 0).length = pad8 (values.length * b) + 1 := by
  obtain ⟨restores, bytes⟩ := restores_innerBitPacking packers narrow length fits
  have width := t.bits_le
  have head : charBits (ofNat b) = b := charBits_ofNat (by omega)
  have unmarked : ∀ b ≤ 64, b &&& 0x80 = 0 := by decide
  rw [innerDoEncode, if_pos rfl]
  constructor
  · refine (restores_takeByte _).bind ?_
    grind
  grind

theorem marked_header : ∀ b < 128, charBits (ofNat (0x80 ||| b)) &&& 0x80 ≠ 0 ∧
    charBits (ofNat (0x80 ||| b)) &&& (0x80 - 1) = b := by
  decide +kernel

variable (length : values.length = blockSize)
include length

theorem restores_patched {b : Nat} (less : b < maxbits2 values) : Restores (innerDoDecode packers t)
        ([ofNat (0x80 ||| b), ofNat (maxbits2 values - b)] ++
          innerDoEncode packers values b (maxbits2 values - b)) values ∧
      ([ofNat (0x80 ||| b), ofNat (maxbits2 values - b)] ++
          innerDoEncode packers values b (maxbits2 values - b)).length =
        2 + pad8 values.length + pad8 (wider values b * (maxbits2 values - b)) + pad8 (values.length * b) := by
  have size : values.length = 128 := length
  have width := t.bits_le
  have widest := maxbits2_le values
  have narrow : b ≤ t.bits := by omega
  have exFits : FitBits (maxbits2 values - b) (exceptions b values) := by
    intro upper member
    obtain ⟨value, inside, rfl⟩ := mem_map.mp member
    have fits := fitBits_maxbits2 values value (mem_of_mem_filter inside)
    rw [toNat_ushiftRight, shiftRight_eq_div_pow]
    apply Nat.div_lt_of_lt_mul
    rwa [← Nat.pow_add, Nat.add_sub_cancel' less.le]
  have exCount : (exceptions b values).length = values.countP fun value => mask t b < value := by
    rw [exceptions, length_map, countP_eq_length_filter]
  have exWider : (exceptions b values).length = wider values b := by
    rw [exCount, wider]
    exact countP_congr fun value _ => by simp [mask_lt_iff_gccbits narrow]
  have exRestores := restores_scalarBitPacking packers (by omega) exFits
  have exBytes := length_scalarBitPacking packers (by omega) exFits
  rw [exCount, ← popcnt64_halves length] at exRestores
  -- the masked elements
  have masked : FitBits b (values.map (· &&& mask t b)) := by
    intro value member
    obtain ⟨whole, -, rfl⟩ := mem_map.mp member
    rw [toNat_and_mask narrow]
    exact mod_lt _ (Nat.two_pow_pos b)
  obtain ⟨dataRestores, dataBytes⟩ := restores_innerBitPacking packers narrow (by rw [length_map, length]) masked
  have text : innerDoEncode packers values b (maxbits2 values - b) = bitmap b values 0 ++ (bitmap b values 1 ++
        (scalarBitPacking packers t (exceptions b values) (maxbits2 values - b) ++
          innerBitPacking packers (values.map (· &&& mask t b)) b)) := by
    have words : (range ((values.length + 63) / 64)).flatMap
        (fun i => leBytes 8 (xmap (misses values b) i)) = bitmap b values 0 ++ bitmap b values 1 := by
      rw [size]
      simp [range_succ, bitmap]
    have all : pad8 values.length = (bitmap b values 0 ++ bitmap b values 1).length := by
      rw [size, length_append, length_bitmap, length_bitmap]
      rfl
    rw [innerDoEncode, if_neg (by omega)]
    simp only [words, all, take_length, map_misses, List.append_assoc]
  obtain ⟨marked, unmarked⟩ := marked_header b (by omega)
  rw [text]
  constructor
  · have apart : ∀ (first second : UInt8) (rest : List UInt8),
        [first, second] ++ rest = [first] ++ ([second] ++ rest) := fun _ _ _ => rfl
    rw [apart]
    refine (restores_takeByte _).bind ?_
    rw [if_neg marked, unmarked]
    refine (restores_takeByte _).bind ((restores_takeBytes (length_bitmap ..)).bind
      ((restores_takeBytes (length_bitmap ..)).bind ?_))
    rw [charBits_ofNat (by omega)]
    refine exRestores.bind (dataRestores.last ?_)
    dsimp only
    rw [patch_halves narrow length]
    exact restores_pure values
  · simp only [length_append, length_bitmap, exBytes, dataBytes, exWider, length]
    simp only [pad8, blockSize, length_cons, length_nil]
    omega

/-- Whatever width is chosen, the block is read back, and takes as many bytes as reckoned. -/
theorem restores_split {b : Nat} (within : b ≤ maxbits2 values) :
    ∃ header, storeBxAndB t b (maxbits2 values - b) = .ok header ∧ Restores (innerDoDecode packers t)
        (header ++ innerDoEncode packers values b (maxbits2 values - b)) values ∧
      (header ++ innerDoEncode packers values b (maxbits2 values - b)).length =
        blockLength values b := by
  have widest := maxbits2_le values
  by_cases same : b = maxbits2 values
  · have none : maxbits2 values - b = 0 := by omega
    rw [none]
    obtain ⟨restores, bytes⟩ := restores_plain packers length (same ▸ widest) (same ▸ fitBits_maxbits2 values)
    refine ⟨_, if_pos rfl, restores, ?_⟩
    rw [bytes, blockLength, if_pos same]
  · obtain ⟨restores, bytes⟩ := restores_patched packers length (by omega : b < maxbits2 values)
    refine ⟨_, ?_, restores, ?_⟩
    · rw [storeBxAndB, if_neg (by omega), if_pos (by omega)]
    · rw [bytes, blockLength, if_neg same]

/-- What `__encode_array` appends for a block: it is read back, and it is no longer than the block
packed without exceptions and one byte. -/
theorem encodeArray_spec {outLen : Nat} {out encoded : List UInt8}
    (success : encodeArray packers values outLen out = .ok encoded) :
    ∃ text, encoded = out ++ text ∧ text ≠ [] ∧ Restores (innerDoDecode packers t) text values ∧
      text.length ≤ 1 + pad8 (values.length * maxbits2 values) := by
  obtain ⟨within, rest, shortest⟩ := findMostFitBx_spec values
  obtain ⟨header, stored, restores, bytes⟩ := restores_split packers length within
  rw [encodeArray] at success
  split at success
  next => cases success
  next =>
    simp only [rest, stored] at success
    cases success
    refine ⟨_, append_assoc _ _ _, ?_, restores, by rw [bytes]; omega⟩
    intro empty
    rw [empty, length_nil, blockLength] at bytes
    split at bytes <;> omega

end Block

end IMBridge.Codec.ObSIMDFixedPFor
