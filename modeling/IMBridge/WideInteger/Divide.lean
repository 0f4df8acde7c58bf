import IMBridge.WideInteger.Shift
import IMBridge.Lib.LongDivision

/-!
`ObWideInteger::_impl::divide`: short division by a native integer, and Knuth's long division by a
wide one, which needs a free top item in the numerator and otherwise starts over at twice the width.
-/

namespace IMBridge.WideInteger

open Lib.Limbs Lib.LongDivision ObWideInteger

variable {k k2 : ℕ} {s s2 : Signedness}

namespace Impl

/-- A double word assigned to a wide integer: only its low word where the type is wider. -/
def ofDouble (k : ℕ) (s : Signedness) (d : DwType) : ObWideInteger k s :=
  ⟨((if 2 < k then [lowWord d] else [lowWord d, lowWord (d >>> 64)]) ++ List.replicate k 0).take k,
    by simp⟩

/-- One item of the short division: the partial remainder goes on to the next lower item. -/
def shortStep (den num : DwType) (item : UInt64) : UInt64 × DwType :=
  let num := (num <<< 64) + dword item
  if num < den then (0, num) else (lowWord (num / den), num % den)

/-- Quotient and remainder of the magnitudes, for a native denominator above one. -/
def divideDouble (numerator : ObWideInteger k .unsigned) (den : DwType) :
    ObWideInteger k s × ObWideInteger k s :=
  if two : k = 2 then
    let num := numerator.dw
    (⟨(ofDw (num / den) : ObWideInteger 2 s).items, (size _).trans two.symm⟩,
      ⟨(ofDw (num % den) : ObWideInteger 2 s).items, (size _).trans two.symm⟩)
  else
    let loop := chain (shortStep den) 0 numerator.items.reverse
    (⟨loop.1.reverse, by
        rw [List.length_reverse, length_chain, List.length_reverse, numerator.size]⟩,
      ⟨overwrite (zero k s).items 0 [lowWord loop.2], by
        rw [length_overwrite, size]⟩)

def signQuotient (lNeg rNeg : Bool) (out : ObWideInteger k s × ObWideInteger k s) :
    ObWideInteger k s × ObWideInteger k s :=
  (if lNeg != rNeg then (unaryMinus false out.1).2 else out.1,
    if lNeg then (unaryMinus false out.2).2 else out.2)

def divideNative (check : Bool) (lhs : ObWideInteger k s) (rhs : Native s2)
    (quotient remain : ObWideInteger k s) : RetCode × ObWideInteger k s × ObWideInteger k s :=
  if check && rhs.word == 0 then (.operateOverflow, quotient, remain)
  else if cmpNative lhs (⟨0⟩ : Native .signed) = 0 then (.success, .zero k s, lhs)
  else
    let numerator := (makePositive lhs).assign k .unsigned
    let denominator := if rhs.isNegative then rhs.neg.toDw else rhs.toDw
    if cmp numerator (ofDouble k .unsigned denominator) < 0 then (.success, .zero k s, lhs)
    else if denominator = 1 then
      let quotient : ObWideInteger k s := numerator.assign k s
      (retCode check (lhs.isNegative && lhs.isNegative == rhs.isNegative &&
          overflowPositiveRange quotient),
        signQuotient lhs.isNegative rhs.isNegative (quotient, .zero k s))
    else (.success, signQuotient lhs.isNegative rhs.isNegative (divideDouble numerator denominator))

def dwBase : DwType := (1 : DwType) <<< 64

/-- The quotient digit of round `j`: estimated from the leading items and corrected at most once.
All of it is 128-bit arithmetic. -/
def trialDigit (numerator denominator : ObWideInteger k .unsigned) (n j : ℕ) : DwType :=
  let top := dword (denominator.item (n - 1))
  let tmpValue := dword (numerator.item (j + n)) * dwBase + dword (numerator.item (j + n - 1))
  let qq := tmpValue / top
  let rr := tmpValue % top
  if qq = dwBase ∨ (2 ≤ n ∧ qq * dword (denominator.item (n - 2)) >
      dwBase * rr + dword (numerator.item (j + n - 2))) then qq - 1 else qq

/-- `tmp_cf`: the `n + 1` items of the numerator from `j` on, less the denominator times the digit.
Only the first `n + 1` items of `tmp_ct` are ever written, the others stay zero. -/
def windowMinus (s : Signedness) (numerator denominator : ObWideInteger k .unsigned) (n j : ℕ)
    (digit : UInt64) : ObWideInteger k s :=
  let tmpCt : ObWideInteger k s := ⟨overwrite (zero k s).items 0
    ((numerator.items.drop j).take (n + 1)), by rw [length_overwrite, size]⟩
  let tmpVt := (multiplyNative false denominator (⟨digit⟩ : Native .unsigned)).2
  (sub false tmpCt (tmpVt.assign k s)).2

/-- Round `j`: the product of the digit is taken off the numerator from item `j` on, and the
denominator added back once if that went below zero. -/
def longStep (denominator : ObWideInteger k .unsigned) (n : ℕ)
    (state : ObWideInteger k .unsigned × ObWideInteger k s) (j : ℕ) :
    ObWideInteger k .unsigned × ObWideInteger k s :=
  let numerator := state.1
  let qq := trialDigit numerator denominator n j
  let tmpCf := windowMinus s numerator denominator n j (lowWord qq)
  let corrected := if tmpCf.isNegative then (add tmpCf (denominator.assign k s), qq - 1)
    else (tmpCf, qq)
  (⟨overwrite numerator.items j (corrected.1.items.take (n + 1)), by
      rw [length_overwrite, numerator.size]⟩,
    ⟨state.2.items.set j (lowWord corrected.2), by rw [List.length_set, state.2.size]⟩)

def longLoop (denominator : ObWideInteger k .unsigned) (n : ℕ) :
    ℕ → ObWideInteger k .unsigned × ObWideInteger k s →
      ObWideInteger k .unsigned × ObWideInteger k s
  | 0, state => state
  | j + 1, state => longLoop denominator n j (longStep denominator n state j)

/-- Quotient and remainder of the magnitudes; the quotient object is written item by item. -/
def longDivide (numerator denominator : ObWideInteger k .unsigned) (shiftBits : ℕ)
    (quotient : ObWideInteger k s) : ObWideInteger k s × ObWideInteger k s :=
  let numerator := shiftLeft numerator shiftBits
  let denominator := shiftLeft denominator shiftBits
  let n := itemSize denominator
  let m := itemSize numerator - n
  let last := longLoop denominator n (m + 1) (numerator, quotient)
  (last.2, (shiftRight last.1 shiftBits).assign k s)

/-- `divide` by a wide integer, into the given quotient and remainder objects. The calls at wider
types are bounded by `fuel`; running out of it is no result. -/
def divide (fuel : ℕ) (check : Bool) {k k2 : ℕ} {s s2 : Signedness} (lhs : ObWideInteger k s)
    (rhs : ObWideInteger k2 s2) (quotient remain : ObWideInteger k s) :
    Option (RetCode × ObWideInteger k s × ObWideInteger k s) :=
  match fuel with
  | 0 => none
  | fuel + 1 =>
    if check && cmpNative rhs (⟨0⟩ : Native .signed) == 0 then
      some (.operateOverflow, quotient, remain)
    else if cmpNative lhs (⟨0⟩ : Native .signed) = 0 then some (.success, .zero k s, lhs)
    else if k2 ≤ k then
      let numerator := (makePositive lhs).assign k .unsigned
      let denominator := (makePositive rhs).assign k .unsigned
      if cmp numerator denominator < 0 then some (.success, .zero k s, lhs)
      else if cmpNative denominator (⟨1⟩ : Native .signed) = 0 then
        let quotient : ObWideInteger k s := numerator.assign k s
        some (retCode check (lhs.isNegative && lhs.isNegative == rhs.isNegative &&
            overflowPositiveRange quotient),
          if lhs.isNegative != rhs.isNegative then (unaryMinus false quotient).2 else quotient,
          .zero k s)
      else
        let shiftBits := nlz denominator % 64
        if shiftBits + 64 > nlz numerator then
          (divide fuel check (lhs.assign (promoted k) s) rhs (.zero _ s) (.zero _ s)).map
            fun out => (out.1, out.2.1.assign k s, out.2.2.assign k s)
        else
          some (.success, signQuotient lhs.isNegative rhs.isNegative
            (longDivide numerator denominator shiftBits quotient))
    else
      (divide fuel check (lhs.assign k2 .signed) rhs (.zero _ .signed) (.zero _ .signed)).map
        fun out => (out.1, out.2.1.assign k s, out.2.2.assign k s)

end Impl

end IMBridge.WideInteger
