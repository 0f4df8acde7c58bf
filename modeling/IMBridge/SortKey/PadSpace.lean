import IMBridge.SortKey.ScalarOrder

/-!
The `PAD SPACE` order and the keys written for it. A string without its trailing spaces is a list of
runs, each of some spaces and then another byte; the two orders differ only in how long a run of
spaces is taken to be.
-/

namespace IMBridge.SortKey

open Lib.ByteOrder List

def padTo (n : ℕ) (data : Bytes) : Bytes := data ++ replicate (n - data.length) 0x20

def padCompare (a b : Bytes) : Ordering :=
  compare (padTo (max a.length b.length) a) (padTo (max a.length b.length) b)

/-! The order byte by byte. -/

def againstSpaces : Bytes → Ordering
  | [] => .eq
  | byte :: rest => (compare byte 0x20).then (againstSpaces rest)

def padOrder : Bytes → Bytes → Ordering
  | [], bs => (againstSpaces bs).swap
  | as, [] => againstSpaces as
  | a :: as, b :: bs => (compare a b).then (padOrder as bs)

theorem compare_byte_swap (a b : UInt8) : (compare a b).swap = compare b a := Std.OrientedCmp.eq_swap.symm

variable {n : ℕ} {byte : UInt8} {run r u : Run} (data : Bytes)

theorem compare_replicate (enough : data.length ≤ n) :
    compare (padTo n data) (replicate n 0x20) = againstSpaces data := by
  induction data generalizing n with
  | nil =>
    rw [padTo, nil_append, length_nil, Nat.sub_zero]
    exact compare_bytes_self _
  | cons byte rest ih =>
    obtain ⟨n, rfl⟩ : ∃ m, n = m + 1 := ⟨n - 1, by simp at enough; omega⟩
    rw [length_cons, Nat.add_le_add_iff_right] at enough
    rw [padTo, length_cons, Nat.add_sub_add_right, cons_append, replicate_succ,
      List.compare_cons_cons, againstSpaces, ← ih enough]
    rfl

theorem compare_padTo (a b : Bytes) (left : a.length ≤ n) (right : b.length ≤ n) :
    compare (padTo n a) (padTo n b) = padOrder a b := by
  induction a generalizing b n with
  | nil =>
    have spaces : padTo n [] = replicate n 0x20 := by
      rw [padTo, nil_append, length_nil, Nat.sub_zero]
    rw [spaces, compare_bytes_swap, compare_replicate b right, padOrder]
  | cons first as ih =>
    cases b with
    | nil =>
      have spaces : padTo n [] = replicate n 0x20 := by
        rw [padTo, nil_append, length_nil, Nat.sub_zero]
      rw [spaces, compare_replicate _ left]
      rfl
    | cons second bs =>
      obtain ⟨n, rfl⟩ : ∃ m, n = m + 1 := ⟨n - 1, by simp at left; omega⟩
      rw [length_cons, Nat.add_le_add_iff_right] at left right
      rw [padTo, padTo, length_cons, length_cons, Nat.add_sub_add_right,
        Nat.add_sub_add_right, cons_append, cons_append, List.compare_cons_cons, padOrder,
        ← ih bs left right]
      rfl

theorem padCompare_eq (a b : Bytes) : padCompare a b = padOrder a b :=
  compare_padTo a b (Nat.le_max_left _ _) (Nat.le_max_right _ _)

theorem padOrder_swap (a b : Bytes) : (padOrder a b).swap = padOrder b a := by
  rw [← padCompare_eq, ← padCompare_eq, padCompare, padCompare, ← compare_bytes_swap, Nat.max_comm]

theorem padTo_append {k : ℕ} (enough : data.length + k ≤ n) : padTo n (data ++ replicate k 0x20) = padTo n data := by
  rw [padTo, padTo, append_assoc, ← replicate_add, length_append, length_replicate]
  congr 2
  omega

theorem padOrder_append (a b : Bytes) (k j : ℕ) :
    padOrder (a ++ replicate k 0x20) (b ++ replicate j 0x20) = padOrder a b := by
  have left : a.length + k ≤ a.length + k + (b.length + j) := Nat.le_add_right _ _
  have right : b.length + j ≤ a.length + k + (b.length + j) := Nat.le_add_left _ _
  have longA : (a ++ replicate k 0x20).length ≤ a.length + k + (b.length + j) := by
    rwa [length_append, length_replicate]
  have longB : (b ++ replicate j 0x20).length ≤ a.length + k + (b.length + j) := by
    rwa [length_append, length_replicate]
  rw [← compare_padTo _ _ longA longB, padTo_append a left, padTo_append b right,
    compare_padTo a b (by omega) (by omega)]

/-! Runs. -/

structure Run where
  spaces : ℕ
  byte : UInt8
  other : byte ≠ 0x20
deriving DecidableEq

def Run.bytes (run : Run) : Bytes := replicate run.spaces 0x20 ++ [run.byte]

def ofRuns (runs : List Run) : Bytes := runs.flatMap Run.bytes

def runsFrom (spaces : ℕ) : Bytes → List Run
  | [] => []
  | byte :: rest =>
    if space : byte = 0x20 then runsFrom (spaces + 1) rest
    else ⟨spaces, byte, space⟩ :: runsFrom 0 rest

def runs : List Run := runsFrom 0 data

theorem runsFrom_spec (spaces : ℕ) (data : Bytes) : ∃ k, replicate spaces 0x20 ++ data =
      ofRuns (runsFrom spaces data) ++ replicate k 0x20 := by
  induction data generalizing spaces with
  | nil => exact ⟨spaces, by rw [runsFrom, ofRuns, flatMap_nil, append_nil, nil_append]⟩
  | cons byte rest ih =>
    rw [runsFrom]
    split
    next space =>
      obtain ⟨k, split⟩ := ih (spaces + 1)
      refine ⟨k, ?_⟩
      rw [← split, space, replicate_succ', append_assoc, singleton_append]
    next space =>
      obtain ⟨k, split⟩ := ih 0
      refine ⟨k, ?_⟩
      rw [replicate_zero, nil_append] at split
      rw [ofRuns, flatMap_cons, Run.bytes, append_assoc, append_assoc, ← ofRuns, ← split, singleton_append]

theorem runs_spec : ∃ k, data = ofRuns (runs data) ++ replicate k 0x20 := by
  exact runsFrom_spec 0 data

theorem strict_of_ne (other : byte ≠ 0x20) : compare byte 0x20 ≠ .eq :=
  fun equal => other (Std.LawfulEqOrd.compare_eq_iff_eq.mp equal)

theorem then_of_ne {o : Ordering} (strict : o ≠ .eq) (o' : Ordering) : o.then o' = o := by
  cases o with
  | lt => rfl
  | eq => exact absurd rfl strict
  | gt => rfl

theorem againstSpaces_run (run : Run) (rest : Bytes) : againstSpaces (run.bytes ++ rest) = compare run.byte 0x20 := by
  rw [Run.bytes, append_assoc, singleton_append]
  induction run.spaces with
  | zero => exact then_of_ne (strict_of_ne run.other) _
  | succ n ih =>
    rw [replicate_succ, cons_append, againstSpaces, compare_byte_self, ih]
    rfl

theorem padOrder_replicate (n : ℕ) (a b : Bytes) :
    padOrder (replicate n 0x20 ++ a) (replicate n 0x20 ++ b) = padOrder a b := by
  induction n with
  | zero => rfl
  | succ n ih =>
    rw [replicate_succ, cons_append, cons_append, padOrder, compare_byte_self, ih]
    rfl

def Run.above (run : Run) : Bool := 0x20 < run.byte

/-- The order of two runs when `length` says how long so many spaces are. Where a longer run goes
depends on the byte behind it. -/
def Run.order (length : ℕ → ℤ) (r u : Run) : Ordering :=
  match r.spaces, u.spaces with
  | 0, 0 => compare r.byte u.byte
  | 0, _ + 1 => compare r.byte 0x20
  | _ + 1, 0 => compare 0x20 u.byte
  | n + 1, m + 1 =>
    (compare r.above u.above).then
      ((directed r.above (compare (length (n + 1)) (length (m + 1)))).then (compare r.byte u.byte))

def runOrder (length : ℕ → ℤ) : List Run → List Run → Ordering
  | [], [] => .eq
  | [], u :: _ => compare 0x20 u.byte
  | r :: _, [] => compare r.byte 0x20
  | r :: rs, u :: us => (r.order length u).then (runOrder length rs us)

theorem Run.compare_space (run : Run) : compare run.byte 0x20 = if run.above then .gt else .lt := by
  split
  next above => exact Std.compare_eq_gt.mpr (of_decide_eq_true above)
  next below =>
    cases order : compare run.byte 0x20 with
    | lt => rfl
    | eq => exact absurd order (strict_of_ne run.other)
    | gt => exact absurd (decide_eq_true (Std.compare_eq_gt.mp order)) below

theorem Run.compare_above_then (r u : Run) :
    (compare r.above u.above).then (compare r.byte u.byte) = compare r.byte u.byte := by
  have left := r.compare_space
  have right := u.compare_space
  cases low : r.above <;> cases high : u.above <;> rw [low] at left <;> rw [high] at right
  · rfl
  · exact (Std.compare_eq_lt.mpr (UInt8.lt_trans (Std.compare_eq_lt.mp left) (Std.compare_eq_gt.mp right))).symm
  · exact (Std.compare_eq_gt.mpr (UInt8.lt_trans (Std.compare_eq_lt.mp right) (Std.compare_eq_gt.mp left))).symm
  · rfl

theorem Run.order_of_eq (length : ℕ → ℤ) (same : r.spaces = u.spaces) : r.order length u = compare r.byte u.byte := by
  rw [Run.order, same]
  cases u.spaces with
  | zero => rfl
  | succ n =>
    dsimp only
    rw [compare_eq_iff_eq.mpr rfl, ← r.compare_above_then u]
    cases r.above <;> cases u.above <;> rfl

theorem Run.order_of_lt (less : r.spaces < u.spaces) : r.order (fun n => n) u = compare r.byte 0x20 := by
  obtain ⟨m, long⟩ : ∃ m, u.spaces = m + 1 := ⟨u.spaces - 1, by omega⟩
  rw [Run.order, long]
  cases short : r.spaces with
  | zero => rfl
  | succ n =>
    dsimp only
    have longer : compare ((n + 1 : ℕ) : ℤ) ((m + 1 : ℕ) : ℤ) = .lt := by
      rw [compare_lt_iff_lt]
      omega
    rw [longer, r.compare_space]
    cases r.above <;> cases u.above <;> rfl

theorem Run.order_of_gt (greater : u.spaces < r.spaces) : r.order (fun n => n) u = compare 0x20 u.byte := by
  obtain ⟨n, long⟩ : ∃ n, r.spaces = n + 1 := ⟨r.spaces - 1, by omega⟩
  rw [Run.order, long]
  cases short : u.spaces with
  | zero => rfl
  | succ m =>
    dsimp only
    rw [← compare_byte_swap u.byte 0x20]
    have longer : compare ((n + 1 : ℕ) : ℤ) ((m + 1 : ℕ) : ℤ) = .gt := by
      rw [compare_gt_iff_gt]
      omega
    rw [longer, u.compare_space]
    cases r.above <;> cases u.above <;> rfl

theorem Run.bytes_append (run : Run) (rest : Bytes) :
    run.bytes ++ rest = replicate run.spaces 0x20 ++ run.byte :: rest := by
  rw [Run.bytes, append_assoc, singleton_append]

theorem padOrder_shorter {m : ℕ} (less : n < m) (other : byte ≠ 0x20) (x y : Bytes) :
    padOrder (replicate n 0x20 ++ byte :: x) (replicate m 0x20 ++ y) = compare byte 0x20 := by
  obtain ⟨k, rfl⟩ : ∃ k, m = n + (k + 1) := ⟨m - n - 1, by omega⟩
  rw [replicate_add, append_assoc, padOrder_replicate, replicate_succ, cons_append, padOrder]
  exact then_of_ne (strict_of_ne other) _

theorem padOrder_run (r u : Run) (x y : Bytes) :
    padOrder (r.bytes ++ x) (u.bytes ++ y) = (r.order (fun n => n) u).then (padOrder x y) := by
  rw [r.bytes_append, u.bytes_append]
  rcases Nat.lt_trichotomy r.spaces u.spaces with less | same | greater
  · rw [padOrder_shorter less r.other, Run.order_of_lt less, then_of_ne (strict_of_ne r.other)]
  · rw [same, padOrder_replicate, padOrder, Run.order_of_eq _ same]
  rw [← padOrder_swap, padOrder_shorter greater u.other, Run.order_of_gt greater, compare_byte_swap, then_of_ne]
  rw [← compare_byte_swap, ne_eq, Ordering.swap_eq_eq]
  exact strict_of_ne u.other

theorem padOrder_ofRuns (rs us : List Run) : padOrder (ofRuns rs) (ofRuns us) = runOrder (fun n => n) rs us := by
  induction rs generalizing us with
  | nil =>
    cases us with
    | nil => rfl
    | cons u us =>
      rw [ofRuns, ofRuns, flatMap_nil, flatMap_cons, padOrder, againstSpaces_run, compare_byte_swap]
      rfl
  | cons r rs ih =>
    cases us with
    | nil =>
      rw [← padOrder_swap, ofRuns, ofRuns, flatMap_nil, flatMap_cons, padOrder, againstSpaces_run, Ordering.swap_swap]
      rfl
    | cons u us =>
      rw [ofRuns, ofRuns, flatMap_cons, flatMap_cons, padOrder_run, ← ofRuns, ← ofRuns, ih]
      rfl

/-- The `PAD SPACE` order of two strings is the order of their runs. -/
theorem padCompare_eq_runOrder (a b : Bytes) : padCompare a b = runOrder (fun n => n) (runs a) (runs b) := by
  obtain ⟨k, left⟩ := runs_spec a
  obtain ⟨j, right⟩ := runs_spec b
  calc padCompare a b
      = padOrder (ofRuns (runs a) ++ replicate k 0x20)
          (ofRuns (runs b) ++ replicate j 0x20) := by rw [← left, ← right, padCompare_eq]
    _ = padOrder (ofRuns (runs a)) (ofRuns (runs b)) := padOrder_append _ _ k j
    _ = _ := padOrder_ofRuns _ _

/-! The keys of runs. -/

def wrapped (n : ℕ) : ℤ := (BitVec.ofNat 16 n).toInt

def Run.key (run : Run) : Bytes :=
  (if run.spaces = 0 then [] else spaceRun (BitVec.ofNat 16 run.spaces) run.byte) ++ [run.byte]

def runsKey (rs : List Run) : Bytes := rs.flatMap Run.key ++ [0x20, 0x20]

theorem spaceLoop_replicate (run : Option (BitVec 16)) (n : ℕ) (rest : Bytes) :
    spaceLoop run (replicate (n + 1) 0x20 ++ rest) = spaceLoop (some (run.getD 0 + BitVec.ofNat 16 (n + 1))) rest := by
  induction n generalizing run with
  | zero => rfl
  | succ n ih =>
    have first : spaceLoop run (replicate (n + 2) 0x20 ++ rest) =
        spaceLoop (some (run.getD 0 + 1)) (replicate (n + 1) 0x20 ++ rest) := rfl
    rw [first, ih, Option.getD_some, BitVec.add_assoc, BitVec.ofNat_add (n + 1), BitVec.add_comm 1]
    rfl

theorem spaceLoop_run (run : Run) (rest : Bytes) :
    spaceLoop none (run.bytes ++ rest) = run.key ++ spaceLoop none rest := by
  rw [run.bytes_append, Run.key]
  cases run.spaces with
  | zero =>
    rw [replicate_zero, nil_append, spaceLoop, if_neg run.other]
    rfl
  | succ n =>
    rw [spaceLoop_replicate, spaceLoop, if_neg run.other, if_neg (Nat.succ_ne_zero n),
      Option.getD_none, show (0 : BitVec 16) + _ = _ from BitVec.zero_add _, append_assoc]
    rfl

theorem spaceLoop_ofRuns (rs : List Run) : spaceLoop none (ofRuns rs) = runsKey rs := by
  induction rs with
  | nil => rfl
  | cons r rs ih =>
    rw [ofRuns, flatMap_cons, spaceLoop_run, ← ofRuns, ih, runsKey, runsKey, flatMap_cons, append_assoc]

theorem stripSpaces_append (k : ℕ) : stripSpaces (data ++ replicate k 0x20) = stripSpaces data := by
  induction k with
  | zero => rw [replicate_zero, append_nil]
  | succ k ih =>
    rwa [replicate_succ', ← append_assoc, stripSpaces, rdropWhile_concat_pos _ _ _ (by simp)]

theorem stripSpaces_ofRuns (rs : List Run) : stripSpaces (ofRuns rs) = ofRuns rs := by
  induction rs using reverseRecOn with
  | nil => rfl
  | append_singleton rs r =>
    have last : ofRuns (rs ++ [r]) = ofRuns rs ++ replicate r.spaces 0x20 ++ [r.byte] := by
      rw [ofRuns, flatMap_append, flatMap_singleton, Run.bytes, append_assoc]
      rfl
    rw [stripSpaces, last, rdropWhile_concat_neg _ _ _ (by simpa using r.other)]

theorem convertUtf8mb4BinSp_eq : convertUtf8mb4BinSp data = runsKey (runs data) := by
  obtain ⟨k, split⟩ := runs_spec data
  calc convertUtf8mb4BinSp data
      = spaceLoop none (stripSpaces (ofRuns (runs data) ++ replicate k 0x20)) := by
        rw [← split, convertUtf8mb4BinSp]
    _ = spaceLoop none (ofRuns (runs data)) := by rw [stripSpaces_append, stripSpaces_ofRuns]
    _ = _ := spaceLoop_ofRuns _

/-! What the keys decide. -/

def Run.mark (run : Run) : UInt8 := if run.above then 0x21 else 0x19

def Run.count (run : Run) : BitVec 16 :=
  if run.above then (BitVec.ofNat 16 run.spaces ^^^ 0xFFFF) ^^^ 0x8000
  else BitVec.ofNat 16 run.spaces ^^^ 0x8000

theorem spaceRun_eq (run : Run) :
    spaceRun (BitVec.ofNat 16 run.spaces) run.byte = [0x20, run.mark] ++ copySwapped 2 run.count := by
  have side : ((run.byte.toBitVec.setWidth 16 - 0x20 : BitVec 16).toInt > 0) ↔ run.above = true := by
    rw [Run.above, decide_eq_true_iff, UInt8.lt_iff_toBitVec_lt]
    generalize run.byte.toBitVec = byte
    revert byte
    decide +kernel
  rw [spaceRun, Run.mark, Run.count]
  grind

theorem compare_mark (r u : Run) : compare r.mark u.mark = compare r.above u.above := by
  rw [Run.mark, Run.mark]
  cases r.above <;> cases u.above <;> decide

theorem compare_count (same : r.above = u.above) :
    compareUnsigned r.count u.count = directed r.above (compare (wrapped r.spaces) (wrapped u.spaces)) := by
  rw [Run.count, Run.count, ← same]
  cases r.above with
  | false => exact compareUnsigned_flipSign (w := 16) (by decide) _ _
  | true =>
    have flipped (v : BitVec 16) : (v ^^^ 0xFFFF) ^^^ 0x8000 = (v ^^^ BitVec.intMin 16) ^^^ BitVec.allOnes 16 := by
      rw [BitVec.xor_assoc, BitVec.xor_comm 0xFFFF, ← BitVec.xor_assoc]
      rfl
    rw [if_pos rfl, if_pos rfl, flipped, flipped, compareUnsigned_masked, compareUnsigned_flipSign (by decide)]
    rfl

theorem decides_count (same : r.above = u.above) : Decides (copySwapped 2 r.count) (copySwapped 2 u.count)
      (directed r.above (compare (wrapped r.spaces) (wrapped u.spaces))) := by
  rw [← compare_count same]
  exact decides_copySwapped (n := 2) r.count u.count

theorem decides_space (other : byte ≠ 0x20) (x y : Bytes) : Decides (byte :: x) (0x20 :: y) (compare byte 0x20) :=
  (Decides.byte byte 0x20).extend (strict_of_ne other) x y

theorem decides_marked (r u : Run) : Decides ([0x20, r.mark] ++ copySwapped 2 r.count ++ [r.byte])
      ([0x20, u.mark] ++ copySwapped 2 u.count ++ [u.byte])
      ((compare r.above u.above).then
        ((directed r.above (compare (wrapped r.spaces) (wrapped u.spaces))).then
          (compare r.byte u.byte))) := by
  have marks : Decides [0x20, r.mark] [0x20, u.mark] (compare r.above u.above) := by
    rw [← compare_mark]
    exact (Decides.byte r.mark u.mark).cons 0x20
  rw [append_assoc, append_assoc]
  by_cases same : r.above = u.above
  · exact marks.append ((decides_count same).append (Decides.byte r.byte u.byte))
  have strict : compare r.above u.above ≠ .eq := by
    rwa [ne_eq, compare_eq_iff_eq]
  rw [then_of_ne strict]
  exact marks.extend strict _ _

theorem Run.key_succ (some : run.spaces ≠ 0) : run.key = [0x20, run.mark] ++ copySwapped 2 run.count ++ [run.byte] := by
  rw [Run.key, if_neg some, spaceRun_eq]

theorem Run.key_zero (none : run.spaces = 0) : run.key = [run.byte] := by
  rw [Run.key, if_pos none, nil_append]

theorem Run.key_succ_cons (some : run.spaces ≠ 0) (rest : Bytes) :
    run.key ++ rest = 0x20 :: ([run.mark] ++ copySwapped 2 run.count ++ [run.byte] ++ rest) := by
  rw [Run.key_succ some]
  rfl

theorem decides_run (r u : Run) {x y : Bytes} {o : Ordering} (rest : Decides x y o) :
    Decides (r.key ++ x) (u.key ++ y) ((r.order wrapped u).then o) := by
  unfold Run.order
  split
  next none none' =>
    rw [r.key_zero none, u.key_zero none']
    exact (Decides.byte r.byte u.byte).append rest
  next m none some =>
    rw [r.key_zero none, u.key_succ_cons (by omega), then_of_ne (strict_of_ne r.other)]
    exact decides_space r.other _ _
  next n some none =>
    have strict : (compare u.byte 0x20).swap ≠ .eq := by
      rw [ne_eq, Ordering.swap_eq_eq]
      exact strict_of_ne u.other
    rw [u.key_zero none, r.key_succ_cons (by omega), ← compare_byte_swap, then_of_ne strict]
    exact (decides_space u.other _ _).swap
  next n m some some' =>
    rw [r.key_succ (by omega), u.key_succ (by omega), show n + 1 = r.spaces from some.symm,
      show m + 1 = u.spaces from some'.symm]
    exact (decides_marked r u).append rest

theorem decides_end (u : Run) (y : Bytes) : Decides [0x20, 0x20] (u.key ++ y) (compare 0x20 u.byte) := by
  rw [← compare_byte_swap]
  by_cases none : u.spaces = 0
  · rw [u.key_zero none]
    exact (decides_space u.other _ _).swap
  have strict : compare 0x20 u.mark ≠ .eq := by
    rw [Run.mark]
    cases u.above <;> decide
  have side : compare 0x20 u.mark = (compare u.byte 0x20).swap := by
    rw [u.compare_space, Run.mark]
    cases u.above <;> decide
  rw [u.key_succ_cons none, ← side]
  exact ((Decides.byte 0x20 u.mark).extend strict [] _).cons 0x20

/-- The keys of runs are ordered as the runs are when their lengths are taken as `int16_t`. -/
theorem decides_runsKey (rs us : List Run) : Decides (runsKey rs) (runsKey us) (runOrder wrapped rs us) := by
  induction rs generalizing us with
  | nil =>
    cases us with
    | nil => exact Decides.refl _
    | cons u us =>
      rw [runsKey, runsKey, flatMap_cons, append_assoc]
      exact decides_end u _
  | cons r rs ih =>
    cases us with
    | nil =>
      rw [runsKey, runsKey, flatMap_cons, append_assoc, runOrder, ← compare_byte_swap]
      exact (decides_end r _).swap
    | cons u us =>
      rw [runsKey, runsKey, flatMap_cons, flatMap_cons, append_assoc, append_assoc]
      exact decides_run r u (ih us)

theorem decides_convertUtf8mb4BinSp (a b : Bytes) :
    Decides (convertUtf8mb4BinSp a) (convertUtf8mb4BinSp b) (runOrder wrapped (runs a) (runs b)) := by
  rw [convertUtf8mb4BinSp_eq, convertUtf8mb4BinSp_eq]
  exact decides_runsKey _ _

end IMBridge.SortKey
