import IMBridge.Hash.PointerHashMap
import Mathlib.Tactic.IntervalCases

/-!
The invariant of `ObPointerHashMap`: all sub maps but the last are full, several of them have one of
the two block sizes, and no key is stored twice. So a search that meets a sub map which is not full
has seen all of them.
-/

namespace IMBridge.Hash

open IMBridge.Lib List PointerHashArray
open IMBridge.Lib.LinearProbing

namespace PointerHashMap

variable {K V : Type} {traits : Traits K V}

def limit (memSize : Nat) : Nat := loadLimit ((memSize - 64) / 8)

structure Valid (traits : Traits K V) (map : PointerHashMap V) : Prop where
  nonempty : map.subMaps ≠ []
  few : map.subMaps.length ≤ maxSubMapCount
  large : 72 ≤ map.subMapMemSize
  each : ∀ a ∈ map.subMaps, a.Valid traits
  sized : ∀ a ∈ map.subMaps, a.maxEntries = limit map.subMapMemSize
  full : ∀ a ∈ map.subMaps.dropLast, a.isFull
  blocks : 1 < map.subMaps.length →
    map.subMapMemSize = normalBlockSize ∨ map.subMapMemSize = bigBlockSize
  unique : (map.entries.map traits.getKey).Nodup

variable {before : List (PointerHashArray V)} {a : PointerHashArray V} {memSize : Nat}

theorem Valid.last {map : PointerHashMap V} (valid : map.Valid traits) {after : List (PointerHashArray V)}
    (split : map.subMaps = before ++ a :: after) (unfilled : ¬ a.isFull) : after = [] := by
  by_contra more
  refine unfilled (valid.full a ?_)
  rw [split, dropLast_append_cons, dropLast_cons_of_ne_nil more]
  simp

theorem entries_init (V : Type) (defaultSize : Nat) : (init V defaultSize).entries = [] := by
  rw [entries, init, flatMap_singleton]
  exact entries_of_empty fun _ => rfl

theorem valid_init {defaultSize : Nat} (large : 72 ≤ defaultSize) : (init V defaultSize).Valid traits where
  nonempty := cons_ne_nil _ _
  few := show 1 ≤ 4 by decide
  large := large
  each := by
    intro a member
    rw [mem_singleton.mp member]
    exact valid_create large
  sized := by
    intro a member
    rw [mem_singleton.mp member]
    rfl
  full := by simp [init]
  blocks := by simp [init]
  unique := by
    rw [entries_init]
    exact nodup_nil

/-- An operation of one sub map keeps the invariant if it adds no key twice. -/
theorem Valid.replace {map : PointerHashMap V} (valid : map.Valid traits) {after : List (PointerHashArray V)}
    {a' : PointerHashArray V} (split : map.subMaps = before ++ a :: after) (step : Step traits a a')
    (unique : (((before ++ a' :: after).flatMap PointerHashArray.entries).map traits.getKey).Nodup) :
    Valid traits { map with subMaps := before ++ a' :: after } := by
  have member : a ∈ map.subMaps := by simp [split]
  have others : ∀ b ∈ before ++ a' :: after, b = a' ∨ b ∈ map.subMaps := by
    grind
  have length : (before ++ a' :: after).length = map.subMaps.length := by simp [split]
  refine ⟨by simp, length ▸ valid.few, valid.large, ?_, ?_, ?_, fun more => ?_, unique⟩
  · intro b inside
    rcases others b inside with rfl | old
    · exact step.valid
    · exact valid.each b old
  · intro b inside
    rcases others b inside with rfl | old
    · exact step.maxEntries.trans (valid.sized a member)
    · exact valid.sized b old
  · intro b inside
    have full := valid.full
    rw [split, dropLast_append_cons] at full
    rw [show ({ map with subMaps := before ++ a' :: after } : PointerHashMap V).subMaps =
      before ++ a' :: after from rfl, dropLast_append_cons] at inside
    rcases mem_append.mp inside with early | late
    · exact full b (mem_append_left _ early)
    cases after with
    | nil => cases late
    | cons next after =>
      rw [dropLast_cons_cons] at late full
      rcases mem_cons.mp late with rfl | last
      · have was := full a (by simp)
        rw [isFull] at was ⊢
        rw [step.maxEntries]
        exact was.trans step.count
      · exact full b (by simp [last])
  · exact valid.blocks (by rw [← length]; exact more)

/-! ### Room for the entries -/

theorem normalBlockSize_eq : normalBlockSize = 7936 := rfl

theorem bigBlockSize_eq : bigBlockSize = 2079744 := rfl

theorem limit_bounds (memSize : Nat) : 10 * 2 ^ 48 * limit memSize ≤ (7 * 2 ^ 48 + 1) * ((memSize - 64) / 8) ∧
      (7 * 2 ^ 48 - 1) * ((memSize - 64) / 8) < 10 * 2 ^ 48 * (limit memSize + 1) :=
  loadLimit_bounds _

theorem limit_lt_double (large : 72 ≤ memSize) : limit memSize < limit (memSize * 2) := by
  have one := limit_bounds memSize
  have two := limit_bounds (memSize * 2)
  omega

theorem limit_le_normal (less : memSize < normalBlockSize) : limit memSize ≤ limit normalBlockSize := by
  have one := limit_bounds memSize
  have two := limit_bounds normalBlockSize
  rw [normalBlockSize_eq] at *
  omega

theorem limit_le_big (less : memSize < bigBlockSize) : limit memSize ≤ limit bigBlockSize := by
  have one := limit_bounds memSize
  have two := limit_bounds bigBlockSize
  rw [bigBlockSize_eq] at *
  omega

/-- Four sub maps of a block size fit into one array of four or of eight times the size. -/
theorem four_limit_lt (block : memSize = normalBlockSize ∨ memSize = bigBlockSize) :
    4 * limit memSize < limit (4 * memSize) ∧ 4 * limit memSize < limit (4 * (memSize * 2)) := by
  have one := limit_bounds memSize
  have four := limit_bounds (4 * memSize)
  have eight := limit_bounds (4 * (memSize * 2))
  rw [normalBlockSize_eq, bigBlockSize_eq] at block
  rcases block with rfl | rfl <;> omega

/-- Growing from this size in powers of two, the step to a block size adds at least one entry. -/
def Roomy (memSize : Nat) : Prop :=
  ∀ k, (memSize * 2 ^ k < normalBlockSize → normalBlockSize < memSize * 2 ^ k * 2 →
      limit (memSize * 2 ^ k) < limit normalBlockSize) ∧
    (memSize * 2 ^ k < bigBlockSize → bigBlockSize < memSize * 2 ^ k * 2 →
      limit (memSize * 2 ^ k) < limit bigBlockSize)

theorem Roomy.double (roomy : Roomy memSize) : Roomy (memSize * 2) := by
  intro k
  rw [Nat.mul_assoc, ← Nat.pow_succ']
  exact roomy (k + 1)

theorem roomy_of_big_le (large : bigBlockSize ≤ memSize) : Roomy memSize := by
  intro k
  have grown : memSize ≤ memSize * 2 ^ k := Nat.le_mul_of_pos_right _ (Nat.two_pow_pos k)
  rw [bigBlockSize_eq] at *
  rw [normalBlockSize_eq]
  constructor <;> intro less <;> omega

theorem roomy_normal : Roomy normalBlockSize := by
  intro k
  refine ⟨fun less => absurd less (Nat.not_lt.mpr (Nat.le_mul_of_pos_right _ (Nat.two_pow_pos k))), ?_⟩
  intro less more
  rw [normalBlockSize_eq, bigBlockSize_eq] at *
  have last : k = 8 := by
    have few : k < 9 := by
      by_contra many
      have power : 2 ^ 9 ≤ 2 ^ k := Nat.pow_le_pow_right (by decide) (by omega)
      omega
    interval_cases k <;> omega
  subst last
  have one := limit_bounds (7936 * 2 ^ 8)
  have two := limit_bounds 2079744
  omega

theorem roomy_128 : Roomy 128 := by
  intro k
  have one := limit_bounds (128 * 2 ^ k)
  have normal := limit_bounds 7936
  have big := limit_bounds 2079744
  rw [normalBlockSize_eq, bigBlockSize_eq]
  omega

theorem roomy_1024 : Roomy 1024 := roomy_128.double.double.double

variable {map : PointerHashMap V}

theorem Valid.itemCount_eq (valid : map.Valid traits) : map.itemCount = map.entries.length := by
  rw [itemCount, entries, length_flatMap]
  exact congrArg sum (map_congr_left fun a member => (valid.each a member).itemCount)

theorem Valid.count_eq (valid : map.Valid traits) (filled : ∀ a ∈ map.subMaps, a.isFull) :
    map.count = map.subMaps.length * limit map.subMapMemSize := by
  have same : ∀ a ∈ map.subMaps, a.count = limit map.subMapMemSize := by
    intro a member
    have bounded := (valid.each a member).bounded
    have full : a.maxEntries ≤ a.count := filled a member
    rw [← valid.sized a member]
    omega
  rw [count, map_congr_left same, map_const', sum_replicate, Nat.nsmul_eq_mul]

theorem Valid.itemCount_le_count (valid : map.Valid traits) : map.itemCount ≤ map.count :=
  sum_le_sum fun a member => (valid.each a member).itemCount_le

/-- The rounded product with 1.1 is not less than the number. -/
theorem lt_count_of_not_extend (enough : ¬ map.isNeedExtend) : map.itemCount < map.count := by
  have bounds := mulTrunc_bounds 4953959590107546 52 map.itemCount
  have less : mulTrunc 4953959590107546 52 map.itemCount < map.count := Nat.not_le.mp enough
  omega

theorem roomy_four_times (block : memSize = normalBlockSize ∨ memSize = bigBlockSize) :
    Roomy (4 * memSize) ∧ Roomy (4 * (memSize * 2)) := by
  have parts (n : Nat) : 4 * n = n * 2 * 2 := by omega
  rw [parts, parts]
  rcases block with rfl | rfl
  · exact ⟨roomy_normal.double.double, roomy_normal.double.double.double⟩
  · constructor <;> exact roomy_of_big_le (by omega)

theorem growth_one_extended (one : map.subMaps.length = 1)
    (other : ¬ (map.subMapMemSize = normalBlockSize ∨ map.subMapMemSize = bigBlockSize))
    (large : 72 ≤ map.subMapMemSize) (extend : map.isNeedExtend) :
    ∃ memSize, map.growth = .resizeTo memSize ∧ 72 ≤ memSize ∧ limit map.subMapMemSize ≤ limit memSize ∧
      (Roomy map.subMapMemSize → limit map.subMapMemSize < limit memSize ∧ Roomy memSize) := by
  have size : map.extendSize = map.subMapMemSize * 2 := if_pos extend
  have doubled := limit_lt_double large
  have twice : ∃ memSize, Growth.resizeTo (map.subMapMemSize * 2) = .resizeTo memSize ∧
      72 ≤ memSize ∧ limit map.subMapMemSize ≤ limit memSize ∧
      (Roomy map.subMapMemSize → limit map.subMapMemSize < limit memSize ∧ Roomy memSize) :=
    ⟨_, rfl, by omega, doubled.le, fun roomy => ⟨doubled, roomy.double⟩⟩
  rw [growth, if_pos one, if_neg fun block => other block.1, size]
  split
  next => exact twice
  next more =>
    split
    next less =>
      refine ⟨_, rfl, by decide, limit_le_normal less, fun roomy => ⟨?_, roomy_normal⟩⟩
      simpa using (roomy 0).1 (by simpa using less) (by simpa using more)
    next =>
      split
      next => exact twice
      next most =>
        split
        next less =>
          refine ⟨_, rfl, by decide, limit_le_big less, fun roomy => ⟨?_, ?_⟩⟩
          · simpa using (roomy 0).2 (by simpa using less) (by simpa using most)
          · exact roomy_of_big_le (Nat.le_refl _)
        next => exact twice

theorem growth_one_kept (one : map.subMaps.length = 1)
    (other : ¬ (map.subMapMemSize = normalBlockSize ∨ map.subMapMemSize = bigBlockSize))
    (enough : ¬ map.isNeedExtend) : map.growth = .resizeTo map.subMapMemSize := by
  have size : map.extendSize = map.subMapMemSize := if_neg enough
  rw [growth, if_pos one, if_neg fun block => other block.1, size]
  split
  next => rfl
  next more =>
    rw [if_neg (by omega)]
    split
    next => rfl
    next most => rw [if_neg (by omega)]

/-- A full map gets one more sub map of a block size, or an array that holds its entries; from a
roomy size on, one entry more. -/
theorem Valid.growth_spec (valid : map.Valid traits) (filled : ∀ a ∈ map.subMaps, a.isFull) :
    (map.growth = .addSubMap ∧ map.subMaps.length < maxSubMapCount ∧
      (map.subMapMemSize = normalBlockSize ∨ map.subMapMemSize = bigBlockSize)) ∨
    ∃ memSize, map.growth = .resizeTo memSize ∧ 72 ≤ memSize ∧ map.entries.length ≤ limit memSize ∧
      (Roomy map.subMapMemSize → map.entries.length < limit memSize ∧ Roomy memSize) := by
  have items := valid.itemCount_eq
  have total := valid.count_eq filled
  have within := valid.itemCount_le_count
  by_cases one : map.subMaps.length = 1
  · rw [one, Nat.one_mul] at total
    by_cases block : map.subMapMemSize = normalBlockSize ∨ map.subMapMemSize = bigBlockSize
    · have few : map.subMaps.length < maxSubMapCount := by
        rw [one]
        decide
      exact .inl ⟨by rw [growth, if_pos one, if_pos ⟨block, few⟩], few, block⟩
    right
    by_cases extend : map.isNeedExtend
    · obtain ⟨memSize, grown, large, fits, roomy⟩ := growth_one_extended one block valid.large extend
      refine ⟨memSize, grown, large, by omega, fun start => ?_⟩
      obtain ⟨more, next⟩ := roomy start
      exact ⟨by omega, next⟩
    · have fewer := lt_count_of_not_extend extend
      exact ⟨_, growth_one_kept one block extend, valid.large, by omega, fun roomy => ⟨by omega, roomy⟩⟩
  · have some_subMap := length_pos_of_ne_nil valid.nonempty
    have block := valid.blocks (by omega)
    by_cases few : map.subMaps.length < maxSubMapCount
    · exact .inl ⟨by rw [growth, if_neg one, if_pos ⟨by omega, few⟩], few, block⟩
    have four : map.subMaps.length = maxSubMapCount := Nat.le_antisymm valid.few (Nat.not_lt.mp few)
    have grown : map.growth = .resizeTo (4 * map.extendSize) := by
      rw [growth, if_neg one, if_neg fun more => few more.2, if_pos four, if_pos block, four]
      rfl
    have fits := four_limit_lt block
    have roomy := roomy_four_times block
    have large := valid.large
    rw [four, show maxSubMapCount = 4 from rfl] at total
    refine .inr ⟨_, grown, ?_⟩
    rw [extendSize]
    grind

def Candidate (traits : Traits K V) (map : PointerHashMap V) (value : V) (i p : Nat) : Prop :=
  ∃ a, map.subMaps[i]? = some a ∧ a.Free traits (traits.getKey value) p ∧
    (a.cells p = .erased ∨ ¬ a.isFull)

def Place.Sound (traits : Traits K V) (map : PointerHashMap V) (value : V) (place : Place) : Prop :=
  (place.subMapIdx = none ∧ place.pos = none) ∨
    ∃ i p, place.subMapIdx = some i ∧ place.pos = some p ∧ map.Candidate traits value i p

def Absent (traits : Traits K V) (value : V) (subMaps : List (PointerHashArray V)) : Prop :=
  ∀ a ∈ subMaps, ∀ other ∈ a.entries, traits.getKey other ≠ traits.getKey value

theorem Absent.concat {value : V} (absent : Absent traits value before)
    (last : ∀ other ∈ a.entries, traits.getKey other ≠ traits.getKey value) : Absent traits value (before ++ [a]) :=
  forall_mem_append.2 ⟨absent, forall_mem_singleton.2 last⟩

inductive Found (traits : Traits K V) (map : PointerHashMap V) (value : V) (overwrite : Bool) :
    Place → Prop
  | stored {i p : Nat} {a : PointerHashArray V} {old : V} {place : Place}
      (subMap : map.subMaps[i]? = some a) (inside : p < a.capacity) (live : a.cells p = .live old)
      (same : traits.getKey old = traits.getKey value)
      (ret : place.ret = if overwrite then .success else .hashExist)
      (here : overwrite = true → place.subMapIdx = some i ∧ place.pos = some p) :
      Found traits map value overwrite place
  | room {i p : Nat} (absent : Absent traits value map.subMaps)
      (candidate : map.Candidate traits value i p) :
      Found traits map value overwrite ⟨.success, some i, some p⟩
  | full {idx pos : Option Nat} (absent : Absent traits value map.subMaps)
      (filled : ∀ a ∈ map.subMaps, a.isFull) :
      Found traits map value overwrite ⟨.hashFull, idx, pos⟩

variable [DecidableEq K]

theorem findLoop_spec {map : PointerHashMap V} (valid : map.Valid traits) (value : V) (overwrite : Bool)
    {rest : List (PointerHashArray V)} {place : Place} (split : map.subMaps = before ++ rest)
    (absent : Absent traits value before) (filled : ∀ a ∈ before, a.isFull) (done : rest = [] → place.ret = .hashFull)
    (sound : place.Sound traits map value) :
    Found traits map value overwrite
      (findLoop traits (traits.getKey value) (.live value) overwrite rest before.length place) := by
  induction rest generalizing before place with
  | nil =>
    rw [append_nil] at split
    obtain ⟨ret, idx, pos⟩ := place
    obtain rfl : ret = .hashFull := done rfl
    exact .full (split ▸ absent) (split ▸ filled)
  | cons a rest ih =>
    have member : a ∈ map.subMaps := by simp [split]
    have here : map.subMaps[before.length]? = some a := by simp [split]
    have further : map.subMaps = (before ++ [a]) ++ rest := by simp [split]
    have length : (before ++ [a]).length = before.length + 1 := by simp
    rcases (valid.each a member).findSetPos_spec value overwrite with
      ⟨p, old, inside, live, same, found⟩ | ⟨missing, unfilled, p, free, found⟩ |
      ⟨missing, full, p, erased, usable, found⟩
    · refine .stored here inside live same ?_ ?_
      · rw [findLoop, found]
        cases overwrite <;> rfl
      · rintro rfl
        rw [findLoop, found]
        exact ⟨rfl, rfl⟩
    · -- A sub map that is not full is the last one, so the key is nowhere.
      obtain rfl : rest = [] := valid.last split unfilled
      have nowhere : Absent traits value map.subMaps := split ▸ absent.concat missing
      rw [findLoop, found]
      rcases sound with ⟨none, -⟩ | ⟨i, q, idx, pos, usable⟩
      · simp only [none, ne_eq, not_true_eq_false, and_false, if_false]
        exact .room nowhere ⟨a, here, free, .inr unfilled⟩
      · simp only [idx, pos, ne_eq, reduceCtorEq, not_false_eq_true, and_self, if_true]
        exact .room nowhere usable
    · have next : Place.Sound traits map value
          (if place.pos = none ∧ erased ≠ none then ⟨.hashFull, some before.length, erased⟩
            else { place with ret := .hashFull }) := by
        split
        next first =>
          obtain ⟨q, rfl⟩ := Option.ne_none_iff_exists'.mp first.2
          obtain ⟨free, cell⟩ := usable q rfl
          exact .inr ⟨before.length, q, rfl, rfl, a, here, free, .inl cell⟩
        next => exact sound
      rw [findLoop, found]
      dsimp only
      generalize next_eq : (if place.pos = none ∧ erased ≠ none then
        (⟨.hashFull, some before.length, erased⟩ : Place)
        else { place with ret := .hashFull }) = next_place at next ⊢
      have ret : next_place.ret = .hashFull := by
        rw [← next_eq]
        split <;> rfl
      split
      next last =>
        obtain rfl : rest = [] := List.isEmpty_iff.mp last.1
        have nowhere : Absent traits value map.subMaps := split ▸ absent.concat missing
        rcases next with ⟨-, none⟩ | ⟨i, q, idx, pos, usable⟩
        · exact absurd none last.2
        rw [idx, pos]
        exact .room nowhere usable
      next =>
        rw [← length]
        refine ih further (absent.concat missing) ?_ (fun _ => ret) next
        grind

theorem Valid.findSetPos_found {map : PointerHashMap V} (valid : map.Valid traits) (value : V) (overwrite : Bool) :
    Found traits map value overwrite (map.findSetPos traits (traits.getKey value) (.live value) overwrite) := by
  refine findLoop_spec valid value overwrite (show map.subMaps = [] ++ map.subMaps from rfl) ?_ ?_ ?_ (.inl ⟨rfl, rfl⟩)
  · intro a none
    cases none
  · intro a none
    cases none
  · intro none
    exact absurd none valid.nonempty

end PointerHashMap

end IMBridge.Hash
