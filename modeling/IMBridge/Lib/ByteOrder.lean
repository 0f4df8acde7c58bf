import Mathlib.Tactic.Ring

/-!
Byte strings that decide a comparison. `Decides p q o` says that two strings beginning with `p` and
`q` compare as `o`, and as what follows when `o` is `eq`. Concatenation composes such decisions,
which is what keys of several columns rely on.
-/

namespace IMBridge.Lib.ByteOrder

open UInt8 List Ordering
abbrev Bytes := List UInt8

def Decides (p q : Bytes) (o : Ordering) : Prop :=
  ∀ x y : Bytes, compare (p ++ x) (q ++ y) = o.then (compare x y)

theorem compare_bytes_self (p : Bytes) : compare p p = .eq := Std.ReflCmp.compare_self

theorem compare_bytes_eq {p q : Bytes} : compare p q = .eq ↔ p = q := Std.LawfulEqOrd.compare_eq_iff_eq

theorem compare_bytes_swap (p q : Bytes) : compare p q = (compare q p).swap := Std.OrientedCmp.eq_swap

theorem compare_byte_self (a : UInt8) : compare a a = .eq := Std.ReflCmp.compare_self

theorem compare_byte (a b : UInt8) : compare a b = compare a.toNat b.toNat := by
  simp only [compare, compareOfLessAndEq, lt_iff_toNat_lt, ← UInt8.toNat_inj]

namespace Decides

variable {p q p' q' : Bytes} {o o' : Ordering}

theorem compare_eq (decides : Decides p q o) : compare p q = o := by
  have plain := decides [] []
  grind

protected theorem refl (p : Bytes) : Decides p p .eq := by
  intro x y
  induction p with
  | nil => rfl
  | cons a p ih =>
    rw [cons_append, cons_append, List.compare_cons_cons, ih, compare_byte_self]
    rfl

theorem append (first : Decides p q o) (second : Decides p' q' o') : Decides (p ++ p') (q ++ q') (o.then o') := by
  intro x y
  rw [append_assoc, append_assoc, first, second, then_assoc]

theorem byte (a b : UInt8) : Decides [a] [b] (compare a b) := by
  intro x y
  simp

theorem cons (a : UInt8) (decides : Decides p q o) : Decides (a :: p) (a :: q) o := by
  simpa using (Decides.refl [a]).append decides

/-- A decision that is not `eq` does not look at what follows. -/
theorem extend (decides : Decides p q o) (strict : o ≠ .eq) (x y : Bytes) : Decides (p ++ x) (q ++ y) o := by
  intro x' y'
  rw [append_assoc, append_assoc, decides]
  cases o with
  | eq => exact absurd rfl strict
  | lt => rfl
  | gt => rfl

/-- Different first bytes decide. -/
theorem of_ne {a b : UInt8} (ne : a ≠ b) (x y : Bytes) : Decides (a :: x) (b :: y) (compare a b) :=
  (byte a b).extend (fun equal => ne (Std.LawfulEqOrd.compare_eq_iff_eq.mp equal)) x y

theorem lt_of_byte {a b : UInt8} (less : a < b) (x y : Bytes) : Decides (a :: x) (b :: y) .lt := by
  have first := Decides.byte a b
  rw [show compare a b = .lt from Std.compare_eq_lt.mpr less] at first
  exact first.extend (by decide) x y

theorem swap (decides : Decides p q o) : Decides q p o.swap := by
  intro x y
  rw [compare_bytes_swap, decides, swap_then, ← compare_bytes_swap]

theorem eq_iff : Decides p q .eq ↔ p = q := by
  constructor
  · exact fun decides => compare_bytes_eq.mp decides.compare_eq
  · rintro rfl
    exact Decides.refl p

theorem eq_of_prefix (decides : Decides p q o) (begins : p <+: q) : p = q := by
  obtain ⟨rest, rfl⟩ := begins
  have extended := decides rest []
  grind

theorem eq_of_prefix' (decides : Decides p q o) (begins : q <+: p) : q = p := decides.swap.eq_of_prefix begins

/-- Order and freedom from proper prefixes are all there is to a decision. -/
theorem of_compare (order : compare p q = o) (left : p <+: q → p = q) (right : q <+: p → q = p) :
    Decides p q o := by
  induction p generalizing q with
  | nil =>
    have empty := left nil_prefix
    subst empty
    rw [← order]
    exact Decides.refl []
  | cons a p ih =>
    cases q with
    | nil => exact absurd (right nil_prefix) (by simp)
    | cons b q =>
      by_cases same : a = b
      · subst same
        rw [List.compare_cons_cons, compare_byte_self] at order
        apply Decides.cons
        grind
      · have decides := of_ne same p q
        rwa [← decides.compare_eq, order] at decides

end Decides

theorem decides_iff {p q : Bytes} {o : Ordering} :
    Decides p q o ↔ compare p q = o ∧ (p <+: q → p = q) ∧ (q <+: p → q = p) :=
  ⟨fun decides => ⟨decides.compare_eq, decides.eq_of_prefix, decides.eq_of_prefix'⟩,
    fun facts => Decides.of_compare facts.1 facts.2.1 facts.2.2⟩

theorem decides_iff_continued {p q : Bytes} {o : Ordering} :
    Decides p q o ↔ (o = .lt → ∀ x y, compare (p ++ x) (q ++ y) = .lt) ∧
      (o = .gt → ∀ x y, compare (p ++ x) (q ++ y) = .gt) ∧ (o = .eq → p = q) := by
  cases o with
  | lt => simp [Decides]
  | eq => simp [Decides.eq_iff]
  | gt => simp [Decides]

/-! Numbers as bytes. A number of `n` bytes lies in memory with its least significant byte first;
`swapBytes` reverses the order of its bytes. -/

section Numbers

def littleEndian : ℕ → ℕ → Bytes
  | 0, _ => []
  | n + 1, v => ofNat v :: littleEndian n (v / 256)

def bigEndian (n v : ℕ) : Bytes := (littleEndian n v).reverse

def ofLittleEndian (bytes : Bytes) : ℕ := bytes.foldr (fun byte v => byte.toNat + 256 * v) 0

def swapBytes (n v : ℕ) : ℕ := ofLittleEndian (bigEndian n v)

@[simp] theorem length_littleEndian (n v : ℕ) : (littleEndian n v).length = n := by
  induction n generalizing v with
  | zero => rfl
  | succ n ih => rw [littleEndian, length_cons, ih]

@[simp] theorem length_bigEndian (n v : ℕ) : (bigEndian n v).length = n := by
  rw [bigEndian, length_reverse, length_littleEndian]

theorem littleEndian_ofLittleEndian (bytes : Bytes) : littleEndian bytes.length (ofLittleEndian bytes) = bytes := by
  induction bytes with
  | nil => rfl
  | cons byte bytes ih =>
    have small := byte.toNat_lt
    have low : UInt8.ofNat (byte.toNat + 256 * ofLittleEndian bytes) = byte := by
      simp
    change UInt8.ofNat (byte.toNat + 256 * ofLittleEndian bytes) ::
      littleEndian bytes.length ((byte.toNat + 256 * ofLittleEndian bytes) / 256) = _
    grind

/-- A number with its bytes swapped lies in memory with the most significant byte first. -/
theorem littleEndian_swapBytes (n v : ℕ) : littleEndian n (swapBytes n v) = bigEndian n v := by
  have written := littleEndian_ofLittleEndian (bigEndian n v)
  rwa [length_bigEndian] at written

theorem bigEndian_succ (n v : ℕ) : bigEndian (n + 1) v = bigEndian n (v / 256) ++ [UInt8.ofNat v] := by
  rw [bigEndian, littleEndian, reverse_cons]
  rfl

theorem bigEndian_mod (n v : ℕ) : bigEndian n (v % 256 ^ n) = bigEndian n v := by
  induction n generalizing v with
  | zero => rfl
  | succ n ih =>
    have high : v % 256 ^ (n + 1) / 256 = v / 256 % 256 ^ n := by
      rw [pow_succ', Nat.mod_mul_right_div_self]
    have low : UInt8.ofNat (v % 256 ^ (n + 1)) = UInt8.ofNat v := by
      apply UInt8.toNat_inj.mp
      simp
    rw [bigEndian_succ, bigEndian_succ, high, low, ih]

theorem bigEndian_add (n m v : ℕ) : bigEndian (n + m) v = bigEndian n (v / 256 ^ m) ++ bigEndian m v := by
  induction m generalizing v with
  | zero => simp [bigEndian, littleEndian]
  | succ m ih =>
    rw [← Nat.add_assoc, bigEndian_succ, bigEndian_succ, ih, append_assoc, Nat.div_div_eq_div_mul, pow_succ']

theorem compare_add_left (c x y : ℕ) : compare (c + x) (c + y) = compare x y := by
  simp only [compare, compareOfLessAndEq, Nat.add_lt_add_iff_left, Nat.add_left_cancel_iff]

theorem compare_div_then_mod (a b m : ℕ) : (compare (a / m) (b / m)).then (compare (a % m) (b % m)) = compare a b := by
  have left := Nat.div_add_mod a m
  have right := Nat.div_add_mod b m
  rcases Nat.lt_trichotomy (a / m) (b / m) with less | same | greater
  · have smaller : a < b := Nat.lt_of_div_lt_div less
    rw [Nat.compare_eq_lt.mpr less, Nat.compare_eq_lt.mpr smaller]
    rfl
  · rw [same] at left ⊢
    rw [Nat.compare_eq_eq.mpr rfl, eq_then, ← compare_add_left (m * (b / m)), left, right]
  · have larger : b < a := Nat.lt_of_div_lt_div greater
    rw [Nat.compare_eq_gt.mpr greater, Nat.compare_eq_gt.mpr larger]
    rfl

/-- Numbers written with the most significant byte first compare as numbers. -/
theorem decides_bigEndian {n a b : ℕ} (left : a < 256 ^ n) (right : b < 256 ^ n) :
    Decides (bigEndian n a) (bigEndian n b) (compare a b) := by
  induction n generalizing a b with
  | zero =>
    rw [pow_zero] at left right
    rw [show a = 0 by omega, show b = 0 by omega]
    exact Decides.refl _
  | succ n ih =>
    rw [pow_succ, Nat.mul_comm] at left right
    have high := ih (Nat.div_lt_of_lt_mul left) (Nat.div_lt_of_lt_mul right)
    have low := Decides.byte (ofNat a) (ofNat b)
    rw [compare_byte, toNat_ofNat', toNat_ofNat'] at low
    rw [bigEndian_succ, bigEndian_succ, ← compare_div_then_mod a b 256]
    exact high.append low

end Numbers

end IMBridge.Lib.ByteOrder
