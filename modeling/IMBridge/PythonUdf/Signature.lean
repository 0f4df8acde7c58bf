import IMBridge.Schema.PythonUdfMgr

/-!
How `CREATE PYTHON_UDF` stores the names and types of the parameters in two strings, and what the
schema object reads back. An `ObString` does not own its bytes, so what the array of names reads
depends on which buffers still exist.
-/

namespace IMBridge.PythonUdf

open List
open IMBridge.Schema (ObString cString cString_eq_self zero_notMem_cString)

def comma : UInt8 := ','.toUInt8

inductive ParamType where
  | string | integer | real | decimal
deriving DecidableEq

namespace ParamType

def value : ParamType → Nat
  | string => 1
  | integer => 2
  | real => 3
  | decimal => 4

def retType : ParamType → PyUdfRetType
  | string => .string
  | integer => .integer
  | real => .real
  | decimal => .decimal

end ParamType

structure ParamDefinition where
  name : ObString
  type : ParamType
deriving DecidableEq

def stringText : ObString := ['S', 'T', 'R', 'I', 'N', 'G'].map Char.toUInt8

def integerText : ObString := ['I', 'N', 'T', 'E', 'G', 'E', 'R'].map Char.toUInt8

def realText : ObString := ['R', 'E', 'A', 'L'].map Char.toUInt8

def decimalText : ObString := ['D', 'E', 'C', 'I', 'M', 'A', 'L'].map Char.toUInt8

def typeText : Nat → ObString
  | 1 => stringText
  | 2 => integerText
  | 3 => realText
  | 4 => decimalText
  | _ => []

def joinArgs : List ObString → ObString
  | [] => []
  | [text] => text
  | text :: next :: texts => text ++ comma :: joinArgs (next :: texts)

structure StoredSignature where
  argNum : Nat
  argNames : ObString
  argTypes : ObString
deriving DecidableEq

/-- The parameters in `ObCreatePythonUdfResolver::resolve`; a name is appended as a C string. -/
def resolve (params : List ParamDefinition) : StoredSignature where
  argNum := params.length
  argNames := joinArgs (params.map fun param => cString param.name)
  argTypes := joinArgs (params.map fun param => typeText param.type.value)

/-- The tokens of `std::getline` on a comma, when the stream is not at its end and `token` has been
read of the present one. -/
def getlinesFrom (token : ObString) : ObString → List ObString
  | [] => [token]
  | byte :: stream =>
    if byte = comma then
      -- A stream that ends behind a comma has no further token.
      token :: (if stream = [] then [] else getlinesFrom [] stream)
    else getlinesFrom (token ++ [byte]) stream

def getlines (stream : ObString) : List ObString :=
  if stream = [] then [] else getlinesFrom [] stream

structure ObStringRef where
  buffer : Nat
  length : Nat
deriving DecidableEq

abbrev Memory := Nat → Option ObString

def Memory.set (mem : Memory) (buffer : Nat) (bytes : Option ObString) : Memory :=
  fun other => if other = buffer then bytes else mem other

def ObStringRef.read (ref : ObStringRef) (mem : Memory) : Option ObString :=
  (mem ref.buffer).map fun bytes => bytes.take ref.length

inductive SignatureErr where
  | countMismatch
deriving DecidableEq

structure ArgNames where
  ret : Except SignatureErr Unit
  names : List ObStringRef
  mem : Memory

namespace StoredSignature

/-- One turn of the loop: the token's bytes replace those of the token before, and the array gets a
reference to them. -/
def pushName (token : Nat) (state : List ObStringRef × Memory) (bytes : ObString) :
    List ObStringRef × Memory :=
  (state.1 ++ [⟨token, bytes.length⟩], state.2.set token (some bytes))

variable (udf : StoredSignature)

/-- `get_arg_names_arr`, with the local `std::string` in the buffer `token`. The string may move to
another buffer when it grows; each of its buffers is gone when the function returns. -/
def getArgNamesArr (token : Nat) (mem : Memory) : ArgNames :=
  let out := (getlines (cString udf.argNames)).foldl (pushName token) ([], mem)
  { ret := if out.1.length ≠ udf.argNum then .error .countMismatch else .ok ()
    names := out.1
    mem := out.2.set token none }

def readNames (token : Nat) (mem : Memory) : List (Option ObString) :=
  (udf.getArgNamesArr token mem).names.map fun ref =>
    ref.read (udf.getArgNamesArr token mem).mem

def typesOfToken (token : ObString) : List PyUdfRetType :=
  if token = stringText then [.string]
  else if token = integerText then [.integer]
  else if token = realText then [.real]
  else if token = decimalText then [.decimal]
  else []

def getArgTypesArr : Except SignatureErr (List PyUdfRetType) :=
  let types := (getlines (cString udf.argTypes)).flatMap typesOfToken
  if types.length ≠ udf.argNum then .error .countMismatch else .ok types

end StoredSignature

/-! The tokens of a joined string. -/

theorem getlinesFrom_eq {word : ObString} (token : ObString) (plain : comma ∉ word) :
    getlinesFrom token word = [token ++ word] := by
  induction word generalizing token with
  | nil => rw [getlinesFrom, append_nil]
  | cons byte word ih =>
    rw [mem_cons, not_or] at plain
    rw [getlinesFrom, if_neg (Ne.symm plain.1), ih _ plain.2, append_assoc, singleton_append]

theorem getlinesFrom_append {word : ObString} (token rest : ObString) (plain : comma ∉ word) :
    getlinesFrom token (word ++ comma :: rest) = (token ++ word) :: getlines rest := by
  induction word generalizing token with
  | nil => rw [nil_append, getlinesFrom, if_pos rfl, append_nil, getlines]
  | cons byte word ih =>
    rw [mem_cons, not_or] at plain
    rw [cons_append, getlinesFrom, if_neg (Ne.symm plain.1), ih _ plain.2, append_assoc, singleton_append]

theorem getlines_joinArgs {texts : List ObString} (nonempty : ∀ text ∈ texts, text ≠ [])
    (plain : ∀ text ∈ texts, comma ∉ text) : getlines (joinArgs texts) = texts := by
  induction texts with
  | nil => rfl
  | cons text texts ih =>
    have rest := ih (fun other member => nonempty other (mem_cons_of_mem _ member))
      fun other member => plain other (mem_cons_of_mem _ member)
    have first := plain text (mem_cons_self ..)
    cases texts with
    | nil =>
      rw [joinArgs, getlines, if_neg (nonempty text (mem_cons_self ..)), getlinesFrom_eq [] first, nil_append]
    | cons next texts =>
      rw [joinArgs, getlines, if_neg (by simp), getlinesFrom_append [] _ first, rest, nil_append]

theorem comma_notMem_getlinesFrom {token stream : ObString} (plain : comma ∉ token) :
    ∀ text ∈ getlinesFrom token stream, comma ∉ text := by
  induction stream generalizing token with
  | nil => simpa [getlinesFrom] using plain
  | cons byte stream ih =>
    rw [getlinesFrom]
    split
    · grind
    · rename_i other
      exact ih (by simp [plain, Ne.symm other])

theorem mem_of_mem_getlinesFrom {token stream : ObString} {byte : UInt8} :
    ∀ text ∈ getlinesFrom token stream, byte ∈ text → byte ∈ token ∨ byte ∈ stream := by
  induction stream generalizing token with
  | nil =>
    intro text member inside
    rw [getlinesFrom, mem_singleton] at member
    exact .inl (member ▸ inside)
  | cons next stream ih =>
    intro text member inside
    rw [getlinesFrom] at member
    split at member
    · grind
    grind

theorem mem_getlines {stream text : ObString} (member : text ∈ getlines stream) :
    comma ∉ text ∧ ∀ byte ∈ text, byte ∈ stream := by
  rw [getlines] at member
  split at member
  · cases member
  refine ⟨comma_notMem_getlinesFrom (by simp) text member, fun byte inside => ?_⟩
  simpa using mem_of_mem_getlinesFrom text member inside

theorem zero_notMem_joinArgs {texts : List ObString} (absent : ∀ text ∈ texts, 0 ∉ text) : 0 ∉ joinArgs texts := by
  induction texts with
  | nil => simp [joinArgs]
  | cons text texts ih =>
    have rest := ih fun other member => absent other (mem_cons_of_mem _ member)
    have first := absent text (mem_cons_self ..)
    cases texts with
    | nil => exact first
    | cons next texts =>
      rw [joinArgs, mem_append, mem_cons]
      simpa [first, rest] using (by decide : (0 : UInt8) ≠ comma)

namespace StoredSignature

/-- The texts that the names are cut into are the declared ones exactly if no name has a comma or a
zero byte in it. -/
theorem getlines_argNames_iff {params : List ParamDefinition} (named : ∀ param ∈ params, param.name ≠ []) :
    getlines (cString (resolve params).argNames) = params.map ParamDefinition.name ↔
      ∀ param ∈ params, comma ∉ param.name ∧ 0 ∉ param.name := by
  have zero : 0 ∉ (resolve params).argNames := by
    refine zero_notMem_joinArgs fun text member => ?_
    obtain ⟨param, -, rfl⟩ := mem_map.mp member
    exact zero_notMem_cString param.name
  rw [cString_eq_self zero]
  constructor
  · intro same param member
    have token : param.name ∈ getlines (resolve params).argNames := by
      rw [same]
      exact mem_map_of_mem member
    exact ⟨(mem_getlines token).1, fun inside => zero ((mem_getlines token).2 0 inside)⟩
  · intro plain
    have names : params.map (fun param => cString param.name) = params.map ParamDefinition.name :=
      map_congr_left fun param member => cString_eq_self (plain param member).2
    rw [resolve, names, getlines_joinArgs]
    · grind
    grind

theorem typesOfToken_typeText (type : ParamType) : typesOfToken (typeText type.value) = [type.retType] := by
  cases type <;> decide

theorem typeText_plain (type : ParamType) :
    typeText type.value ≠ [] ∧ comma ∉ typeText type.value ∧ 0 ∉ typeText type.value := by
  cases type <;> decide

theorem getArgTypesArr_resolve (params : List ParamDefinition) :
    (resolve params).getArgTypesArr = .ok (params.map fun param => param.type.retType) := by
  have texts : ∀ text ∈ params.map fun param => typeText param.type.value, text ≠ [] ∧ comma ∉ text ∧ 0 ∉ text := by
    intro text member
    obtain ⟨param, -, rfl⟩ := mem_map.mp member
    exact typeText_plain param.type
  have tokens : getlines (cString (resolve params).argTypes) = params.map fun param => typeText param.type.value := by
    rw [resolve, cString_eq_self (zero_notMem_joinArgs fun text member => (texts text member).2.2),
      getlines_joinArgs (fun text member => (texts text member).1) fun text member => (texts text member).2.1]
  have types : (params.map fun param => typeText param.type.value).flatMap typesOfToken =
      params.map fun param => param.type.retType := by
    rw [flatMap_map]
    simp only [typesOfToken_typeText]
    exact map_eq_flatMap.symm
  rw [getArgTypesArr, tokens, types]
  simp [resolve]

/-! The array of names. -/

theorem foldl_pushName (token : Nat) (texts : List ObString) (refs : List ObStringRef) (mem : Memory) :
    (texts.foldl (pushName token) (refs, mem)).1 = refs ++ texts.map fun text => ⟨token, text.length⟩ := by
  induction texts generalizing refs mem with
  | nil => simp
  | cons text texts ih => rw [foldl_cons, pushName, ih, append_assoc]; rfl

theorem getArgNamesArr_names (udf : StoredSignature) (token : Nat) (mem : Memory) :
    (udf.getArgNamesArr token mem).names = (getlines (cString udf.argNames)).map fun text => ⟨token, text.length⟩ := by
  rw [getArgNamesArr, foldl_pushName, nil_append]

/-- No name can be read once the function has returned. -/
theorem eq_none_of_mem_readNames {udf : StoredSignature} {token : Nat} {mem : Memory}
    {name : Option ObString} (member : name ∈ udf.readNames token mem) : name = none := by
  rw [readNames, getArgNamesArr_names, map_map] at member
  obtain ⟨text, -, rfl⟩ := mem_map.mp member
  simp [ObStringRef.read, getArgNamesArr, Memory.set]

end StoredSignature

def RoundTrips (params : List ParamDefinition) : Prop := ∀ (token : Nat) (mem : Memory),
    ((resolve params).getArgNamesArr token mem).ret = .ok () ∧
      (resolve params).readNames token mem = params.map (fun param => some param.name) ∧
      (resolve params).getArgTypesArr = .ok (params.map fun param => param.type.retType)

/-- The types always come back and the texts of the names do if no name has a comma or a zero byte
in it; but the array refers to a string that is gone, so that the whole round trip needs a UDF
without parameters. -/
theorem roundTrips_iff (params : List ParamDefinition) (named : ∀ param ∈ params, param.name ≠ []) :
    (RoundTrips params ↔ params = []) ∧
      (resolve params).getArgTypesArr = .ok (params.map fun param => param.type.retType) ∧
      (getlines (cString (resolve params).argNames) = params.map ParamDefinition.name ↔
        ∀ param ∈ params, comma ∉ param.name ∧ 0 ∉ param.name) := by
  refine ⟨⟨fun trips => ?_, ?_⟩, StoredSignature.getArgTypesArr_resolve params,
    StoredSignature.getlines_argNames_iff named⟩
  · obtain ⟨-, names, -⟩ := trips 0 fun _ => none
    cases params with
    | nil => rfl
    | cons param params =>
      have first : some param.name ∈ (resolve (param :: params)).readNames 0 fun _ => none := by
        rw [names]
        exact mem_cons_self ..
      cases StoredSignature.eq_none_of_mem_readNames first
  · rintro rfl token mem
    exact ⟨rfl, rfl, rfl⟩

theorem roundTrips_iff_pair : (RoundTrips [⟨[97], .string⟩, ⟨[98], .real⟩] ↔
        ([⟨[97], .string⟩, ⟨[98], .real⟩] : List ParamDefinition) = []) ∧
      (resolve [⟨[97], .string⟩, ⟨[98], .real⟩]).getArgTypesArr = .ok [.string, .real] ∧
      (getlines (cString (resolve [⟨[97], .string⟩, ⟨[98], .real⟩]).argNames) = [[97], [98]] ↔
        ∀ param ∈ ([⟨[97], .string⟩, ⟨[98], .real⟩] : List ParamDefinition),
          comma ∉ param.name ∧ 0 ∉ param.name) :=
  roundTrips_iff [⟨[97], .string⟩, ⟨[98], .real⟩] (by decide)

/-- The names `a` and `b` are stored as `a,b`, and both references point to a buffer that is gone;
the single name `a,b` is refused for its count. -/
theorem names_lost : (resolve [⟨[97], .string⟩, ⟨[98], .real⟩]).argNames = [97, comma, 98] ∧
      ((resolve [⟨[97], .string⟩, ⟨[98], .real⟩]).getArgNamesArr 0 fun _ => none).ret = .ok () ∧
      (resolve [⟨[97], .string⟩, ⟨[98], .real⟩]).readNames 0 (fun _ => none) = [none, none] ∧
      ¬ RoundTrips [⟨[97], .string⟩, ⟨[98], .real⟩] ∧
      ((resolve [⟨[97, comma, 98], .string⟩]).getArgNamesArr 0 fun _ => none).ret =
        .error .countMismatch := by
  refine ⟨by decide, by decide, by decide, fun trips => ?_, by decide⟩
  have names := (trips 0 fun _ => none).2.1
  revert names
  decide

end IMBridge.PythonUdf
