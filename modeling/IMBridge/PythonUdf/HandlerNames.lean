import IMBridge.Lib.Substring
import IMBridge.Schema.PythonUdfMgr

/-!
How `import_udf` renames the two handlers of a Python source, and when the renaming hits the words
it means. `ObPythonUDFOp` and `ObExprPythonUdf` build the text in the same way.
-/

namespace IMBridge.PythonUdf

open IMBridge.Lib.Substring Option
open IMBridge.Schema (ObString cString cString_eq_self zero_notMem_cString)

def pyinitial : ObString := ['p', 'y', 'i', 'n', 'i', 't', 'i', 'a', 'l'].map Char.toUInt8

def pyfun : ObString := ['p', 'y', 'f', 'u', 'n'].map Char.toUInt8

def underscore : UInt8 := '_'.toUInt8

inductive PycallErr where
  | lackPyinitial
  | lackPyfun
deriving DecidableEq

/-- `check_pycall`, with `strstr` on the source as a C string. -/
def checkPycall (pycall : ObString) : Except PycallErr Unit :=
  if (find pyinitial (cString pycall)).isNone then .error .lackPyinitial
  else if (find pyfun (cString pycall)).isNone then .error .lackPyfun
  else .ok ()

def pyinitialHandler (name : ObString) : ObString := name ++ underscore :: pyinitial

def pyfunHandler (name : ObString) : ObString := name ++ underscore :: pyfun

/-- `pycall.replace(pycall.find(pattern), size of the pattern, inserted)`; without an occurrence,
`replace` throws. -/
def replaceFound (pattern inserted text : ObString) : Option ObString :=
  (find pattern text).map fun pos => replace pos pattern.length inserted text

/-- The two replacements. The second search reads what the first one wrote. -/
def replaceHandlers (name pycall : ObString) : Option ObString :=
  (replaceFound pyinitial (pyinitialHandler name) pycall).bind fun text =>
    replaceFound pyfun (pyfunHandler name) text

/-- The text that `import_udf` runs. A `std::string` made from a pointer ends at the first zero
byte. -/
def importText (udfName pycall : ObString) : Option ObString :=
  replaceHandlers (cString udfName) (cString pycall)

/-- The source with the first `pyinitial` and the first `pyfun` of the source itself renamed. -/
def renamed (name pycall : ObString) : Option ObString :=
  (find pyinitial pycall).bind fun i => (find pyfun pycall).map fun j =>
    if j < i then
      pycall.take j ++ pyfunHandler name ++ (pycall.take i).drop (j + pyfun.length) ++
        pyinitialHandler name ++ pycall.drop (i + pyinitial.length)
    else
      pycall.take i ++ pyinitialHandler name ++ (pycall.take j).drop (i + pyinitial.length) ++
        pyfunHandler name ++ pycall.drop (j + pyfun.length)

def beforePyinitial (pycall : ObString) : ObString := pycall.take ((find pyinitial pycall).getD 0)

/-! The two words, and what an occurrence of one says about the other. -/

def letterP : UInt8 := 'p'.toUInt8

theorem pyinitial_once : letterP ∉ pyinitial.tail := by decide

theorem pyfun_once : letterP ∉ pyfun.tail := by decide

variable {before pycall : ObString}

theorem find_pyinitial (after : ObString) (absent : ¬ pyinitial <:+: before) :
    find pyinitial (before ++ pyinitial ++ after) = some before.length :=
  find_first after pyinitial_once absent

theorem find_pyfun (after : ObString) (absent : ¬ pyfun <:+: before) :
    find pyfun (before ++ pyfun ++ after) = some before.length :=
  find_first after pyfun_once absent

theorem pyfun_around {after : ObString} (inside : pyfun <:+: before ++ pyinitial ++ after) :
    pyfun <:+: before ∨ pyfun <:+: after :=
  infix_around pyfun_once pyinitial_once (by decide) (by decide) inside

theorem pyfun_append_ne (rest rest' : ObString) : pyfun ++ rest ≠ pyinitial ++ rest' := by
  intro same
  have first : pyfun <+: pyfun ++ rest := List.prefix_append ..
  have second : pyinitial <+: pyfun ++ rest := ⟨rest', same.symm⟩
  rcases List.prefix_or_prefix_of_prefix first second with shorter | shorter
  · exact absurd shorter (by decide)
  · exact absurd shorter (by decide)

/-- A source that has both words, cut at their first occurrences. -/
inductive Layout (pycall : ObString) : Prop where
  | pyfunFirst (before between after : ObString)
      (shape : pycall = before ++ pyfun ++ (between ++ pyinitial ++ after))
      (noPyfun : ¬ pyfun <:+: before) (noPyinitial : ¬ pyinitial <:+: before ++ pyfun ++ between)
  | pyinitialFirst (before between after : ObString)
      (shape : pycall = before ++ pyinitial ++ (between ++ pyfun ++ after))
      (noPyinitial : ¬ pyinitial <:+: before) (noPyfun : ¬ pyfun <:+: before ++ pyinitial ++ between)

theorem Layout.of_contains (first : pyinitial <:+: pycall) (second : pyfun <:+: pycall) : Layout pycall := by
  obtain ⟨before, after, rfl, noPyinitial⟩ := exists_first first (by decide)
  by_cases early : pyfun <:+: before
  · obtain ⟨before, between, rfl, noPyfun⟩ := exists_first early (by decide)
    exact .pyfunFirst before between after (by simp) noPyfun noPyinitial
  have late := (pyfun_around second).resolve_left early
  obtain ⟨between, after, rfl, noPyfun⟩ := exists_first late (by decide)
  exact .pyinitialFirst before between after (by simp) noPyinitial fun inside =>
    (pyfun_around inside).elim early noPyfun

theorem checkPycall_eq_ok (accepted : checkPycall pycall = .ok ()) : Layout (cString pycall) := by
  rw [checkPycall] at accepted
  split at accepted
  · cases accepted
  split at accepted
  · cases accepted
  rename_i first second
  rw [Bool.not_eq_true, isNone_eq_false_iff] at first second
  exact .of_contains ((find_isSome (by decide)).mp first) ((find_isSome (by decide)).mp second)

theorem Layout.mono (layout : Layout (cString pycall)) : Layout pycall := by
  have start : cString pycall <+: pycall := List.takeWhile_prefix _
  cases layout with
  | pyfunFirst before between after shape noPyfun noPyinitial =>
    refine .of_contains (.trans ?_ start.isInfix) (.trans ?_ start.isInfix)
    · grind
    grind
  | pyinitialFirst before between after shape noPyinitial noPyfun =>
    refine .of_contains (.trans ?_ start.isInfix) (.trans ?_ start.isInfix)
    · grind
    grind

/-! What the two texts are for each layout. -/

theorem replaceFound_pyinitial (inserted after : ObString) (absent : ¬ pyinitial <:+: before) :
    replaceFound pyinitial inserted (before ++ pyinitial ++ after) = some (before ++ inserted ++ after) := by
  rw [replaceFound, find_pyinitial after absent, map_some, replace_middle]

theorem replaceFound_pyfun (inserted after : ObString) (absent : ¬ pyfun <:+: before) :
    replaceFound pyfun inserted (before ++ pyfun ++ after) = some (before ++ inserted ++ after) := by
  rw [replaceFound, find_pyfun after absent, map_some, replace_middle]

def pyfunThenPyinitial (name before between after : ObString) : ObString :=
  before ++ pyfunHandler name ++ (between ++ pyinitialHandler name ++ after)

def pyinitialThenPyfun (name before between after : ObString) : ObString :=
  before ++ pyinitialHandler name ++ (between ++ pyfunHandler name ++ after)

section

variable {before between after : ObString} (name : ObString)

theorem renamed_pyfunFirst (noPyfun : ¬ pyfun <:+: before) (noPyinitial : ¬ pyinitial <:+: before ++ pyfun ++ between) :
    renamed name (before ++ pyfun ++ (between ++ pyinitial ++ after)) =
      some (pyfunThenPyinitial name before between after) := by
  have first : find pyinitial (before ++ pyfun ++ (between ++ pyinitial ++ after)) =
      some (before ++ pyfun ++ between).length := by
    rw [← find_pyinitial after noPyinitial]
    simp
  have order : before.length < (before ++ pyfun ++ between).length := by
    simp [show 0 < pyfun.length by decide]
  rw [renamed, first, bind_some, find_pyfun _ noPyfun, map_some, if_pos order,
    cut_between, cut_after, List.append_assoc before, List.take_left, pyfunThenPyinitial]
  simp

theorem renamed_pyinitialFirst (noPyinitial : ¬ pyinitial <:+: before)
    (noPyfun : ¬ pyfun <:+: before ++ pyinitial ++ between) :
    renamed name (before ++ pyinitial ++ (between ++ pyfun ++ after)) =
      some (pyinitialThenPyfun name before between after) := by
  have second : find pyfun (before ++ pyinitial ++ (between ++ pyfun ++ after)) =
      some (before ++ pyinitial ++ between).length := by
    rw [← find_pyfun after noPyfun]
    simp
  have order : ¬ (before ++ pyinitial ++ between).length < before.length := by
    simp only [List.length_append]
    omega
  rw [renamed, find_pyinitial _ noPyinitial, bind_some, second, map_some,
    if_neg order, cut_between, cut_after, List.append_assoc before, List.take_left,
    pyinitialThenPyfun]
  simp

theorem replaceHandlers_pyfunFirst (noPyfun : ¬ pyfun <:+: before)
    (noPyinitial : ¬ pyinitial <:+: before ++ pyfun ++ between) :
    replaceHandlers name (before ++ pyfun ++ (between ++ pyinitial ++ after)) =
      some (pyfunThenPyinitial name before between after) := by
  have first : replaceFound pyinitial (pyinitialHandler name) (before ++ pyfun ++ (between ++ pyinitial ++ after)) =
        some (before ++ pyfun ++ (between ++ pyinitialHandler name ++ after)) := by
    have found := replaceFound_pyinitial (pyinitialHandler name) after noPyinitial
    simpa using found
  rw [replaceHandlers, first, bind_some, replaceFound_pyfun _ _ noPyfun, pyfunThenPyinitial]

variable (noPyinitial : ¬ pyinitial <:+: before)
include noPyinitial

theorem replaceHandlers_pyinitialFirst : replaceHandlers name (before ++ pyinitial ++ (between ++ pyfun ++ after)) =
      replaceFound pyfun (pyfunHandler name)
        (before ++ name ++ underscore :: (pyinitial ++ between) ++ pyfun ++ after) := by
  rw [replaceHandlers, replaceFound_pyinitial _ _ noPyinitial, bind_some, pyinitialHandler]
  simp

variable (noPyfun : ¬ pyfun <:+: before ++ pyinitial ++ between)
include noPyfun

theorem replaceHandlers_right {name : ObString} (clean : ¬ pyfun <:+: before ++ name) :
    replaceHandlers name (before ++ pyinitial ++ (between ++ pyfun ++ after)) =
      some (pyinitialThenPyfun name before between after) := by
  have absent : ¬ pyfun <:+: before ++ name ++ underscore :: (pyinitial ++ between) := by
    intro inside
    rcases infix_separated (by decide) inside with inside | inside
    · exact clean inside
    grind
  rw [replaceHandlers_pyinitialFirst name noPyinitial, replaceFound_pyfun _ _ absent,
    pyinitialThenPyfun, pyinitialHandler]
  simp

/-- An occurrence of `pyfun` that the name completes is taken for the handler. -/
theorem replaceHandlers_wrong {name : ObString} (dirty : pyfun <:+: before ++ name) :
    replaceHandlers name (before ++ pyinitial ++ (between ++ pyfun ++ after)) ≠
      some (pyinitialThenPyfun name before between after) := by
  obtain ⟨early, late, split, absent⟩ := exists_first dirty (by decide)
  have wrong : replaceHandlers name (before ++ pyinitial ++ (between ++ pyfun ++ after)) =
      some (early ++ pyfunHandler name ++ (late ++ underscore :: (pyinitial ++ between) ++ pyfun ++ after)) := by
    rw [replaceHandlers_pyinitialFirst name noPyinitial, split, ← replaceFound_pyfun _ _ absent]
    simp
  have right : pyinitialThenPyfun name before between after =
      early ++ pyfun ++ (late ++ underscore :: (pyinitial ++ between) ++ pyfunHandler name ++ after) := by
    rw [pyinitialThenPyfun, pyinitialHandler]
    simpa using congrArg (· ++ underscore :: (pyinitial ++ (between ++ (pyfunHandler name ++ after)))) split
  rw [wrong, right]
  intro same
  rw [Option.some.injEq, List.append_assoc, List.append_assoc early] at same
  have tails := List.append_cancel_left same
  -- The handler would begin with `pyfun`, so the word found is the beginning of the name.
  have front : pyfun <+: name ++ underscore :: (pyfun ++
      (late ++ underscore :: (pyinitial ++ between) ++ pyfun ++ after)) :=
    ⟨_, by rw [← tails, pyfunHandler]; simp⟩
  obtain ⟨tail, rfl⟩ := prefix_separated (by decide) front
  have alone : ¬ pyfun <:+: before := fun inside => noPyfun (inside.trans ⟨[], pyinitial ++ between, by simp⟩)
  obtain ⟨rfl, rfl⟩ := first_unique pyfun_once alone absent ((List.append_assoc ..).trans split)
  -- Behind the rest of the name stands `_pyfun` in one text and `_pyinitial` in the other.
  simp only [pyfunHandler, List.append_assoc, List.cons_append] at tails
  have behind := List.append_cancel_left (List.append_cancel_left tails)
  exact pyfun_append_ne _ _ (List.cons.inj behind).2

end

theorem zero_notMem_replaceFound {pattern inserted text out : ObString} (absent : 0 ∉ inserted)
    (absent' : 0 ∉ text) (found : replaceFound pattern inserted text = some out) : 0 ∉ out := by
  obtain ⟨pos, -, rfl⟩ := map_eq_some_iff.mp found
  intro member
  rw [replace, List.mem_append, List.mem_append] at member
  grind

theorem zero_notMem_importText {name out : ObString} (imported : importText name pycall = some out) : 0 ∉ out := by
  obtain ⟨text, first, second⟩ := bind_eq_some_iff.mp imported
  have name_zero := zero_notMem_cString name
  have initial : 0 ∉ pyinitialHandler (cString name) := by
    simpa [pyinitialHandler, name_zero] using (by decide : (0 : UInt8) ∉ underscore :: pyinitial)
  have function : 0 ∉ pyfunHandler (cString name) := by
    simpa [pyfunHandler, name_zero] using (by decide : (0 : UInt8) ∉ underscore :: pyfun)
  exact zero_notMem_replaceFound function (zero_notMem_replaceFound initial (zero_notMem_cString pycall) first) second

theorem zero_mem_renamed {name : ObString} (layout : Layout pycall) (zero : 0 ∈ name ∨ 0 ∈ pycall) :
    ∃ out, renamed name pycall = some out ∧ 0 ∈ out := by
  have words : (0 : UInt8) ∉ pyinitial ∧ (0 : UInt8) ∉ pyfun := by decide
  cases layout with
  | pyfunFirst before between after shape noPyfun noPyinitial =>
    rw [shape] at zero ⊢
    refine ⟨_, renamed_pyfunFirst name noPyfun noPyinitial, ?_⟩
    grind [pyfunThenPyinitial, pyfunHandler, pyinitialHandler]
  | pyinitialFirst before between after shape noPyinitial noPyfun =>
    rw [shape] at zero ⊢
    refine ⟨_, renamed_pyinitialFirst name noPyinitial noPyfun, ?_⟩
    grind [pyinitialThenPyfun, pyfunHandler, pyinitialHandler]

theorem replaceHandlers_eq_iff (name : ObString) (layout : Layout pycall) :
    replaceHandlers name pycall = renamed name pycall ↔
      pyfun <:+: beforePyinitial pycall ∨ ¬ pyfun <:+: beforePyinitial pycall ++ name := by
  cases layout with
  | pyfunFirst before between after shape noPyfun noPyinitial =>
    have head : beforePyinitial pycall = before ++ pyfun ++ between := by
      have split : pycall = before ++ pyfun ++ between ++ pyinitial ++ after := by simp [shape]
      rw [beforePyinitial, split, find_pyinitial after noPyinitial, getD_some,
        List.append_assoc (before ++ pyfun ++ between), List.take_left]
    rw [head, shape, renamed_pyfunFirst name noPyfun noPyinitial, replaceHandlers_pyfunFirst name noPyfun noPyinitial]
    simp
  | pyinitialFirst before between after shape noPyinitial noPyfun =>
    have head : beforePyinitial pycall = before := by
      rw [beforePyinitial, shape, find_pyinitial _ noPyinitial, getD_some, List.append_assoc, List.take_left]
    have alone : ¬ pyfun <:+: before := fun inside => noPyfun (inside.trans ⟨[], pyinitial ++ between, by simp⟩)
    rw [head, shape, renamed_pyinitialFirst name noPyinitial noPyfun]
    by_cases dirty : pyfun <:+: before ++ name
    · exact iff_of_false (replaceHandlers_wrong noPyinitial noPyfun dirty) (by simp [alone, dirty])
    · exact iff_of_true (replaceHandlers_right noPyinitial noPyfun dirty) (.inr dirty)

/-- The text that is run is the source with its own first `pyinitial` and `pyfun` renamed exactly
if neither holds a zero byte and no `pyfun` arises where the name is put in, or the source has its
own `pyfun` before that place. -/
theorem importText_eq_renamed_iff (name pycall : ObString) (accepted : checkPycall pycall = .ok ()) :
    importText name pycall = renamed name pycall ↔ 0 ∉ name ∧ 0 ∉ pycall ∧
        (pyfun <:+: beforePyinitial pycall ∨ ¬ pyfun <:+: beforePyinitial pycall ++ name) := by
  have layout := (checkPycall_eq_ok accepted).mono
  by_cases zero : 0 ∈ name ∨ 0 ∈ pycall
  · -- A zero byte would have to be in the text that is run.
    obtain ⟨out, made, inside⟩ := zero_mem_renamed layout zero
    refine iff_of_false (fun same => ?_) fun ⟨first, second, _⟩ => zero.elim first second
    exact zero_notMem_importText (same.trans made) inside
  · rw [not_or] at zero
    rw [importText, cString_eq_self zero.1, cString_eq_self zero.2,
      replaceHandlers_eq_iff name layout]
    simp [zero]

def smallSource : ObString := pyinitial ++ ['('.toUInt8, '\n'.toUInt8] ++ pyfun ++ ['('.toUInt8]

theorem importText_smallSource :
    importText ['f'.toUInt8] smallSource = renamed ['f'.toUInt8] smallSource ↔
      0 ∉ ['f'.toUInt8] ∧ 0 ∉ smallSource ∧ (pyfun <:+: beforePyinitial smallSource ∨
        ¬ pyfun <:+: beforePyinitial smallSource ++ ['f'.toUInt8]) :=
  importText_eq_renamed_iff ['f'.toUInt8] smallSource (by decide)

/-- For a UDF named `pyfun`, the second replacement hits the name that the first one put in. -/
theorem importText_named_pyfun : checkPycall smallSource = .ok () ∧
      importText pyfun smallSource = some (pyfunHandler pyfun ++ underscore :: pyinitial ++
        ['('.toUInt8, '\n'.toUInt8] ++ pyfun ++ ['('.toUInt8]) ∧
      renamed pyfun smallSource = some (pyinitialHandler pyfun ++
        ['('.toUInt8, '\n'.toUInt8] ++ pyfunHandler pyfun ++ ['('.toUInt8]) ∧
      importText pyfun smallSource ≠ renamed pyfun smallSource := by
  decide

end IMBridge.PythonUdf
