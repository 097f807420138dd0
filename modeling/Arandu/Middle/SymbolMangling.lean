import Arandu.Amir.Literal
import Arandu.Library.ByteText
import Arandu.Types.Unify

/-!
# Names of generic instances

`symbol_mangling.rs`: an instance is named by the host name of its generic function and the texts of
its type arguments. Underscores separate what may itself contain underscores; a text can still be
read from the left, since its first word tells the constructor and a number, which says how many
bytes or components follow.
-/

namespace Arandu

def Amir.Primitive.asStr : Primitive → String
  | int => "int"
  | uint => "uint"
  | isize => "isize"
  | usize => "usize"
  | float => "float"
  | i8 => "i8"
  | i16 => "i16"
  | i32 => "i32"
  | i64 => "i64"
  | u8 => "u8"
  | u16 => "u16"
  | u32 => "u32"
  | u64 => "u64"
  | f32 => "f32"
  | f64 => "f64"
  | bool => "bool"
  | byte => "byte"
  | char => "char"
  | str => "str"
  | any => "any"

def Amir.VectorType.name : VectorType → String
  | f32x4 => "F32x4"
  | f64x2 => "F64x2"
  | i32x4 => "I32x4"
  | i16x8 => "I16x8"
  | u8x16 => "U8x16"
  | i64x2 => "I64x2"

namespace Middle

open List Amir Arandu.Types Library

/-! ## Mangling -/

structure SymbolTable where
  names : List (List Char)
  hostFunctionNames : List (SymbolId × List Char)

def SymbolTable.hostFuncName (symbols : SymbolTable) (id : SymbolId) : List Char :=
  (symbols.hostFunctionNames.lookup id).getD (symbols.names.getD id [])

structure InstantiationKey where
  symbol : SymbolId
  typeArgs : List TypeId

/-- What names depend on; the digest of a frozen constant is given by its hexadecimal digits. -/
structure Mangler where
  symbols : SymbolTable
  interner : Interner
  digest : Nat → List Char

namespace Mangler

variable (M : Mangler)

/-- `mangle_type_into`, given the texts of the components. -/
def mangleTypeInto (mangle : TypeId → List Char) : ArType → List Char
  | .primitive p => p.asStr.toList
  | .vector vector => "v128_".toList ++ vector.name.toList
  | .named id args =>
    let name := M.symbols.hostFuncName id
    let arguments := M.interner.typeArgs args
    "n".toList ++ natToString (byteLen name) ++ '_' :: (name ++ "_g".toList ++
      natToString arguments.length ++ arguments.flatMap fun arg => '_' :: mangle arg)
  | .nullable inner => "opt_".toList ++ mangle inner
  | .ptr inner => "ptr_".toList ++ mangle inner
  | .ref inner => "ref_".toList ++ mangle inner
  | .refMut inner => "refmut_".toList ++ mangle inner
  | .genRef => "genref".toList
  | .slice inner => "slice_".toList ++ mangle inner
  | .mutSlice inner => "mutslice_".toList ++ mangle inner
  | .array n inner => "arr".toList ++ natToString n ++ '_' :: mangle inner
  | .constArray param inner =>
    "arrparam_".toList ++ M.symbols.names.getD param [] ++ '_' :: mangle inner
  | .frozenConst value => "frozen_".toList ++ M.digest value
  | .const value => "const".toList ++ natToString value
  | .constParam param => "constparam_".toList ++ M.symbols.names.getD param []
  | .tuple items =>
    let items := M.interner.typeArgs items
    "tup".toList ++ natToString items.length ++ items.flatMap fun item => '_' :: mangle item
  | .func params ret =>
    let params := M.interner.typeArgs params
    "fn".toList ++ natToString params.length ++
      (params.flatMap (fun param => '_' :: mangle param) ++ "_R_".toList ++ mangle ret)
  | .result ok err => "res_".toList ++ mangle ok ++ '_' :: mangle err
  | .option inner => "option_".toList ++ mangle inner
  | .coroutine inner => "coro_".toList ++ mangle inner
  | .poll inner => "poll_".toList ++ mangle inner
  | .range inner => "range_".toList ++ mangle inner
  | .void => "void".toList
  | .err => "err".toList
  | .intLiteral => "int".toList
  | .floatLiteral => "float".toList
  | .error => "error".toList

/-- The text of an interned type; its components were interned before it. -/
def mangleType (id : TypeId) : List Char :=
  M.mangleTypeInto (fun child => if _ : child < id then mangleType child else [])
    (M.interner.resolve id)
termination_by id

/-- The type arguments after the first one, and the end of the name. -/
def mangleRest : List TypeId → List Char
  | [] => '_' :: "$E".toList
  | id :: ids => '_' :: ("T_".toList ++ (M.mangleType id ++ mangleRest ids))

def mangleSymbol (key : InstantiationKey) : List Char :=
  "_A".toList ++ '$' :: (M.symbols.hostFuncName key.symbol ++ '$' :: ("I_".toList ++
    match key.typeArgs with
    | [] => M.mangleRest []
    | id :: ids => M.mangleType id ++ M.mangleRest ids))

/-! ## What the names are to tell apart -/

/-- The ids stand for the same type: constructor, data and components agree. -/
inductive SameType (interner : Interner) : TypeId → TypeId → Prop
  | intro {i j : TypeId} (shape : shapeOf (interner.resolve i) = shapeOf (interner.resolve j))
      (components : Forall₂ (SameType interner) (interner.children (interner.resolve i))
        (interner.children (interner.resolve j))) : SameType interner i j

/-- No literal, `Error` or parameter type, and no symbol that is missing in the table. -/
def IsConcrete : ArType → Prop
  | .intLiteral | .floatLiteral | .error | .constArray _ _ | .constParam _ => False
  | .named id _ => id < M.symbols.names.length
  | _ => True

def ConcreteType (id : TypeId) : Prop := M.interner.Everywhere M.IsConcrete (M.interner.resolve id)

/-- Host names are distinct and free of `$`; the digests of the frozen constants are distinct. -/
structure Distinct : Prop where
  host_inj : ∀ i < M.symbols.names.length, ∀ j < M.symbols.names.length,
    M.symbols.hostFuncName i = M.symbols.hostFuncName j → i = j
  no_dollar : ∀ i < M.symbols.names.length, '$' ∉ M.symbols.hostFuncName i
  digest_length : ∀ value, (M.digest value).length = 64
  digest_inj : ∀ v w, .frozenConst v ∈ M.interner.types → .frozenConst w ∈ M.interner.types →
    M.digest v = M.digest w → v = w

/-! ## Reading a text back -/

/-- The words of types without other data. -/
def plainWords : List (List Char × ArType) :=
  [.int, .uint, .isize, .usize, .float, .i8, .i16, .i32, .i64, .u8, .u16, .u32, .u64, .f32, .f64,
    .bool, .byte, .char, .str, .any].map (fun p : Primitive => (p.asStr.toList, .primitive p)) ++
  [("opt".toList, .nullable 0), ("ptr".toList, .ptr 0), ("ref".toList, .ref 0),
    ("refmut".toList, .refMut 0), ("genref".toList, .genRef), ("slice".toList, .slice 0),
    ("mutslice".toList, .mutSlice 0), ("res".toList, .result 0 0), ("option".toList, .option 0),
    ("coro".toList, .coroutine 0), ("poll".toList, .poll 0), ("range".toList, .range 0),
    ("void".toList, .void), ("err".toList, .err)]

/-- The words that end in a number. -/
def numberedWords : List (List Char × (Nat → ArType)) :=
  [("arr".toList, (.array · 0)), ("const".toList, .const), ("tup".toList, (.tuple ⟨0, ·⟩)),
    ("fn".toList, (.func ⟨0, ·⟩ 0))]

def word (text : List Char) : List Char := text.takeWhile (· ≠ '_')

def afterWord (text : List Char) : List Char := text.dropWhile (· ≠ '_')

def number (digits : List Char) : Nat := (digitsValue 10 0 digits).getD 0

open Classical in
/-- Constructor and data of the type whose text begins with the word, and what follows them. -/
noncomputable def readWord (first rest : List Char) : Option (ArType × List Char) :=
  let letters := first.takeWhile (¬ IsDecimal ·)
  let n := number (first.dropWhile (¬ IsDecimal ·))
  match numberedWords.lookup letters with
  | some f => some (f n, rest)
  | none =>
    if letters = "v".toList then do
      let v ← [.f32x4, .f64x2, .i32x4, .i16x8, .u8x16, .i64x2].find? fun v : VectorType =>
        v.name.toList = word rest.tail
      some (.vector v, afterWord rest.tail)
    else if letters = "n".toList then do
      let (name, rest) ← splitAtByte rest.tail n
      let id := epsilon fun id => id < M.symbols.names.length ∧ M.symbols.hostFuncName id = name
      some (.named id ⟨0, number (word rest.tail).tail⟩, afterWord rest.tail)
    else if letters = "frozen".toList then
      let value := epsilon fun v =>
        .frozenConst v ∈ M.interner.types ∧ M.digest v = rest.tail.take 64
      some (.frozenConst value, rest.tail.drop 64)
    else (plainWords.lookup first).map fun ty => (ty, rest)

noncomputable def readHead (text : List Char) : Option (ArType × List Char) :=
  M.readWord (word text) (afterWord text)

/-- What follows constructor and data. -/
def componentsText (mangle : TypeId → List Char) : ArType → List Char
  | .func params ret =>
    (M.interner.typeArgs params).flatMap (fun param => '_' :: mangle param) ++ "_R_".toList ++
      mangle ret
  | ty => (M.interner.children ty).flatMap fun child => '_' :: mangle child

variable {M} {mangle mangle' : TypeId → List Char} {w r x y : List Char} {ty a b : ArType}
  {f : Nat → ArType} {R : TypeId → TypeId → Prop} {xs ys : List TypeId} {i j n : Nat}

lemma split_append {c : Char} (hw : c ∉ w) : (w ++ c :: r).takeWhile (· ≠ c) = w ∧
    (w ++ c :: r).dropWhile (· ≠ c) = c :: r := by
  have hpos : ∀ d ∈ w, decide (d ≠ c) = true := fun d hd => decide_eq_true fun h => hw (h ▸ hd)
  rw [takeWhile_append_of_pos hpos, dropWhile_append_of_pos hpos]
  simp

lemma readHead_append (hw : '_' ∉ w) : M.readHead (w ++ '_' :: r) = M.readWord w ('_' :: r) := by
  rw [readHead, word, afterWord, (split_append hw).1, (split_append hw).2]

lemma isDecimal_natToString {c : Char} (hc : c ∈ natToString n) : IsDecimal c :=
  revDigits_isDecimal _ _ c (mem_reverse.1 hc)

lemma number_natToString (n : Nat) : number (natToString n) = n := by
  rw [number, natToString, digitsValue_revDigits _ n Nat.lt_log2_self]
  rfl

lemma underscore_not_mem (hw : '_' ∉ w) (n : Nat) : '_' ∉ w ++ natToString n := fun h =>
  (mem_append.1 h).elim hw fun h => absurd (isDecimal_natToString h) (by decide)

lemma split_numbered (hw : w.all (¬ IsDecimal ·)) (n : Nat) :
    (w ++ natToString n).takeWhile (¬ IsDecimal ·) = w ∧
      number ((w ++ natToString n).dropWhile (¬ IsDecimal ·)) = n := by
  have hpos := all_eq_true.1 hw
  have hdigits : (natToString n).takeWhile (¬ IsDecimal ·) = [] ∧
      (natToString n).dropWhile (¬ IsDecimal ·) = natToString n := by
    cases hds : natToString n with
    | nil => simp
    | cons d ds =>
      have hd : IsDecimal d := isDecimal_natToString (n := n) (hds ▸ mem_cons_self)
      simp [hd]
  rw [takeWhile_append_of_pos hpos, dropWhile_append_of_pos hpos, hdigits.1, hdigits.2,
    number_natToString, append_nil]
  exact ⟨rfl, rfl⟩

lemma readHead_numbered (hw : (w, f) ∈ numberedWords) (n : Nat) (r : List Char) :
    M.readHead (w ++ natToString n ++ '_' :: r) = some (f n, '_' :: r) := by
  have hwords : ∀ e ∈ numberedWords, '_' ∉ e.1 ∧ e.1.all (¬ IsDecimal ·) := by decide
  obtain ⟨hnot, hdec⟩ := hwords _ hw
  rw [readHead_append (underscore_not_mem hnot n), readWord]
  dsimp only
  rw [(split_numbered hdec n).1, (split_numbered hdec n).2]
  simp only [numberedWords, mem_cons, Prod.mk.injEq, not_mem_nil, or_false] at hw
  rcases hw with ⟨rfl, rfl⟩ | ⟨rfl, rfl⟩ | ⟨rfl, rfl⟩ | ⟨rfl, rfl⟩ <;> rfl

lemma readHead_args (hw : (w, f) ∈ numberedWords) (n : Nat) {t : List Char}
    (ht : ∃ s, t ++ '_' :: r = '_' :: s) :
    M.readHead (w ++ natToString n ++ t ++ '_' :: r) = some (f n, t ++ '_' :: r) := by
  obtain ⟨s, hs⟩ := ht
  rw [append_assoc, hs, readHead_numbered hw]

lemma exists_flatMap (mangle : TypeId → List Char) (xs : List TypeId) (r : List Char) :
    ∃ s, xs.flatMap (fun child => '_' :: mangle child) ++ '_' :: r = '_' :: s := by
  cases xs with
  | nil => exact ⟨r, rfl⟩
  | cons child rest => exact ⟨_, rfl⟩

lemma readHead_named (hM : M.Distinct) (hi : i < M.symbols.names.length) (k : Nat) (r : List Char) :
    M.readHead ("n".toList ++ natToString (byteLen (M.symbols.hostFuncName i)) ++
        '_' :: (M.symbols.hostFuncName i ++ '_' :: ('g' :: natToString k ++ '_' :: r))) =
      some (.named i ⟨0, k⟩, '_' :: r) := by
  have hk := split_append (r := r) (underscore_not_mem (w := ['g']) (by decide) k)
  have hid := Classical.epsilon_spec (p := fun id => id < M.symbols.names.length ∧
    M.symbols.hostFuncName id = M.symbols.hostFuncName i) ⟨i, hi, rfl⟩
  rw [readHead_append (underscore_not_mem (by decide) _), readWord]
  obtain ⟨hletters, hnumber⟩ := split_numbered (w := "n".toList) rfl
    (byteLen (M.symbols.hostFuncName i))
  dsimp only
  rw [hletters, hnumber, show numberedWords.lookup "n".toList = none from rfl]
  dsimp only
  rw [if_neg (by decide), if_pos rfl, tail_cons, splitAtByte_append, Option.bind_eq_bind,
    Option.bind_some]
  dsimp only
  rw [hM.host_inj _ hid.1 _ hi hid.2, tail_cons]
  rw [word, afterWord, show 'g' :: natToString k = ['g'] ++ natToString k from rfl, hk.1, hk.2]
  simp [number_natToString]

lemma readHead_frozen (hM : M.Distinct) (hn : .frozenConst n ∈ M.interner.types) (r : List Char) :
    M.readHead ("frozen".toList ++ '_' :: (M.digest n ++ r)) = some (.frozenConst n, r) := by
  have hvalue := Classical.epsilon_spec (p := fun v => .frozenConst v ∈ M.interner.types ∧
    M.digest v = M.digest n) ⟨n, hn, rfl⟩
  rw [readHead_append (by decide), readWord]
  rw [tail_cons, take_left' (hM.digest_length n), drop_left' (hM.digest_length n),
    hM.digest_inj _ _ hvalue.1 hn hvalue.2]
  rfl

lemma readHead_mangle (hM : M.Distinct) (hmem : ty ∈ M.interner.types)
    (hvalid : M.interner.Valid ty) (hty : M.IsConcrete ty) (r : List Char) :
    M.readHead (M.mangleTypeInto mangle ty ++ '_' :: r) =
      some (shapeOf ty, M.componentsText mangle ty ++ '_' :: r) := by
  have hone : ∀ c, '_' :: (mangle c ++ '_' :: r) =
      [c].flatMap (fun child => '_' :: mangle child) ++ '_' :: r := fun c => by simp
  have htwo : ∀ c d, '_' :: (mangle c ++ '_' :: mangle d ++ '_' :: r) =
      [c, d].flatMap (fun child => '_' :: mangle child) ++ '_' :: r := fun c d => by simp
  cases ty with
  | primitive p => cases p <;> rfl
  | vector v => cases v <;> rfl
  | genRef | void | err => rfl
  | nullable inner | ptr inner | ref inner | refMut inner | slice inner | mutSlice inner
  | option inner | coroutine inner | poll inner | range inner =>
    exact congrArg (fun s => some (_, s)) (hone inner)
  | result ok err => exact congrArg (fun s => some (_, s)) (htwo ok err)
  | array len inner =>
    exact (readHead_args (f := (.array · 0)) (by simp [numberedWords]) len ⟨_, rfl⟩).trans
      (congrArg (fun s => some (_, s)) (hone inner))
  | const value => exact readHead_numbered (f := .const) (by simp [numberedWords]) value r
  | tuple items =>
    refine (readHead_args (f := (.tuple ⟨0, ·⟩)) (by simp [numberedWords])
      (M.interner.typeArgs items).length (exists_flatMap mangle _ r)).trans ?_
    rw [hvalid.length_typeArgs rfl]
    rfl
  | func params ret =>
    obtain ⟨s, hs⟩ := exists_flatMap mangle (M.interner.typeArgs params)
      ('R' :: '_' :: (mangle ret ++ '_' :: r))
    refine (readHead_args (f := (.func ⟨0, ·⟩ 0)) (by simp [numberedWords])
      (M.interner.typeArgs params).length ⟨s, ?_⟩).trans ?_
    · rw [append_assoc, append_assoc]
      exact hs
    · rw [hvalid.length_typeArgs rfl]
      rfl
  | named id args =>
    obtain ⟨s, hs⟩ := exists_flatMap mangle (M.interner.typeArgs args) r
    have hread := readHead_named hM hty (M.interner.typeArgs args).length s
    rw [← hs] at hread
    refine (congrArg _ ?_).trans (hread.trans ?_)
    · show "n".toList ++ _ ++ '_' :: (M.symbols.hostFuncName id ++ "_g".toList ++
        _ ++ (M.interner.typeArgs args).flatMap fun arg => '_' :: mangle arg) ++ '_' :: r = _
      simp
    · rw [hvalid.length_typeArgs rfl]
      rfl
  | frozenConst value => exact readHead_frozen hM hmem ('_' :: r)
  | intLiteral | floatLiteral | error | constArray _ _ | constParam _ => exact hty.elim

/-! ## Names determine instances -/

lemma flatMap_inj (hlen : xs.length = ys.length)
    (hinj : ∀ c ∈ xs, ∀ d ∈ ys, ∀ x y, mangle c ++ '_' :: x = mangle' d ++ '_' :: y → R c d ∧ x = y)
    (h : xs.flatMap (fun child => '_' :: mangle child) ++ '_' :: x =
      ys.flatMap (fun child => '_' :: mangle' child) ++ '_' :: y) : Forall₂ R xs ys ∧ x = y := by
  induction xs generalizing ys with
  | nil =>
    cases ys with
    | nil => exact ⟨.nil, by simpa using h⟩
    | cons d ys => cases hlen
  | cons c xs ih =>
    cases ys with
    | nil => cases hlen
    | cons d ys =>
      obtain ⟨s, hs⟩ := exists_flatMap mangle xs x
      obtain ⟨t, ht⟩ := exists_flatMap mangle' ys y
      simp only [flatMap_cons, cons_append, append_assoc, hs, ht, cons.injEq, true_and] at h
      obtain ⟨hcd, rfl⟩ := hinj c mem_cons_self d mem_cons_self _ _ h
      obtain ⟨hrest, hxy⟩ := ih (Nat.succ.inj hlen)
        (fun c hc d hd => hinj c (mem_cons_of_mem _ hc) d (mem_cons_of_mem _ hd)) (hs.trans ht.symm)
      exact ⟨.cons hcd hrest, hxy⟩

lemma components_inj (ha : M.interner.Valid a) (hb : M.interner.Valid b)
    (shape : shapeOf a = shapeOf b)
    (hinj : ∀ c ∈ M.interner.children a, ∀ d ∈ M.interner.children b, ∀ x y,
      mangle c ++ '_' :: x = mangle' d ++ '_' :: y → R c d ∧ x = y)
    (h : M.componentsText mangle a ++ '_' :: x = M.componentsText mangle' b ++ '_' :: y) :
    Forall₂ R (M.interner.children a) (M.interner.children b) ∧ x = y := by
  have hlen : ∀ r r', rangesOf a = [r] → rangesOf b = [r'] → r.len = r'.len →
      (M.interner.typeArgs r).length = (M.interner.typeArgs r').length := fun r r' hr hr' hlen => by
    rw [ha.length_typeArgs hr, hb.length_typeArgs hr', hlen]
  cases a <;> cases b <;> simp only [shapeOf, reduceCtorEq, ArType.named.injEq, ArType.tuple.injEq,
    ArType.func.injEq, DenseRange.mk.injEq, true_and, and_true] at shape
  case named.named => exact flatMap_inj (hlen _ _ rfl rfl shape.2) hinj h
  case tuple.tuple => exact flatMap_inj (hlen _ _ rfl rfl shape) hinj h
  case func.func params ret params' ret' =>
    rw [componentsText, componentsText, append_assoc, append_assoc, append_assoc, append_assoc] at h
    obtain ⟨hparams, hrest⟩ := flatMap_inj (hlen _ _ rfl rfl shape) (fun c hc d hd =>
      hinj c (mem_append_left _ hc) d (mem_append_left _ hd)) h
    obtain ⟨hret, hxy⟩ := hinj ret (mem_append_right _ mem_cons_self) ret'
      (mem_append_right _ mem_cons_self) x y (by simpa using hrest)
    exact ⟨rel_append hparams (.cons hret .nil), hxy⟩
  all_goals exact flatMap_inj rfl hinj h

lemma lt_of_concrete (h : M.IsConcrete (M.interner.resolve i)) : i < M.interner.types.length := by
  by_contra hge
  have herror : M.interner.resolve i = .error := by
    simp [TypeInterner.resolve, Nat.le_of_not_lt hge]
  rw [herror] at h
  exact h

section

variable (hM : M.Distinct)
include hM

lemma readHead_mangleType (h : M.IsConcrete (M.interner.resolve i)) (x : List Char) :
    M.readHead (M.mangleType i ++ '_' :: x) = some (shapeOf (M.interner.resolve i),
      M.componentsText (fun child => if _ : child < i then M.mangleType child else [])
        (M.interner.resolve i) ++ '_' :: x) := by
  have hi := lt_of_concrete h
  have hmem : M.interner.resolve i ∈ M.interner.types := by simp [TypeInterner.resolve, hi]
  rw [mangleType]
  exact readHead_mangle hM hmem (Interner.resolve_valid hi) h x

lemma mangleType_inj (hi : M.ConcreteType i) (hj : M.ConcreteType j)
    (h : M.mangleType i ++ '_' :: x = M.mangleType j ++ '_' :: y) :
    SameType M.interner i j ∧ x = y := by
  induction i using Nat.strongRecOn generalizing j x y with
  | ind i ih =>
    -- equal texts have equal heads, and the components are of smaller ids
    have hread := congrArg M.readHead h
    rw [readHead_mangleType hM hi.here, readHead_mangleType hM hj.here] at hread
    simp only [Option.some.injEq, Prod.mk.injEq] at hread
    have hi' := lt_of_concrete hi.here
    have hj' := lt_of_concrete hj.here
    obtain ⟨hcomponents, hxy⟩ := components_inj (Interner.resolve_valid hi')
      (Interner.resolve_valid hj') hread.1 (fun c hc d hd x y hcd => by
        have hci := (Interner.resolve_admits hi').2 c hc
        have hdj := (Interner.resolve_admits hj').2 d hd
        rw [dif_pos hci, dif_pos hdj] at hcd
        exact ih c hci (hi.child hc) (hj.child hd) hcd) hread.2
    exact ⟨.intro hread.1 hcomponents, hxy⟩

lemma mangleRest_inj (hi : M.ConcreteType i) (hj : M.ConcreteType j)
    (hxs : ∀ id ∈ xs, M.ConcreteType id) (hys : ∀ id ∈ ys, M.ConcreteType id)
    (h : M.mangleType i ++ M.mangleRest xs = M.mangleType j ++ M.mangleRest ys) :
    Forall₂ (SameType M.interner) (i :: xs) (j :: ys) := by
  induction xs generalizing i j ys with
  | nil =>
    cases ys with
    | nil => exact .cons (mangleType_inj hM hi hj (x := "$E".toList) (y := "$E".toList) h).1 .nil
    | cons l ys => simpa using (mangleType_inj hM hi hj (x := "$E".toList) h).2
  | cons k xs ih =>
    cases ys with
    | nil => simpa using (mangleType_inj hM hi hj (y := "$E".toList) h).2
    | cons l ys =>
      obtain ⟨hij, hrest⟩ := mangleType_inj hM hi hj h
      exact .cons hij (ih (hxs k mem_cons_self) (hys l mem_cons_self)
        (fun id hid => hxs id (mem_cons_of_mem _ hid))
        (fun id hid => hys id (mem_cons_of_mem _ hid)) (by simpa using hrest))

/-- The name of an instance determines its symbol and the types it is instantiated with. -/
theorem mangleSymbol_injective {k l : InstantiationKey}
    (hk : k.symbol < M.symbols.names.length ∧ ∀ id ∈ k.typeArgs, M.ConcreteType id)
    (hl : l.symbol < M.symbols.names.length ∧ ∀ id ∈ l.typeArgs, M.ConcreteType id)
    (h : M.mangleSymbol k = M.mangleSymbol l) :
    k.symbol = l.symbol ∧ Forall₂ (SameType M.interner) k.typeArgs l.typeArgs := by
  have hafter : '$' :: (_ ++ '$' :: _) = '$' :: (_ ++ '$' :: _) := append_cancel_left h
  have hhost := congrArg (takeWhile (· ≠ '$')) (cons.inj hafter).2
  rw [(split_append (hM.no_dollar _ hk.1)).1, (split_append (hM.no_dollar _ hl.1)).1] at hhost
  rw [hhost] at hafter
  have hargs := append_cancel_left (cons.inj (append_cancel_left (cons.inj hafter).2)).2
  refine ⟨hM.host_inj _ hk.1 _ hl.1 hhost, ?_⟩
  -- a name without arguments goes on with an underscore, which no type begins with
  have hnone : ∀ {id ids}, M.ConcreteType id →
      M.mangleRest [] ≠ M.mangleType id ++ M.mangleRest ids := fun {id ids} hid h => by
    obtain ⟨s, hs⟩ : ∃ s, M.mangleRest ids = '_' :: s := by cases ids <;> exact ⟨_, rfl⟩
    have hread := congrArg M.readHead (hs ▸ h)
    rw [readHead_mangleType hM hid.here] at hread
    cases hread
  obtain ⟨symbol, _ | ⟨i, xs⟩⟩ := k <;> obtain ⟨symbol', _ | ⟨j, ys⟩⟩ := l
  · exact .nil
  · exact (hnone (hl.2 j mem_cons_self) hargs).elim
  · exact (hnone (hk.2 i mem_cons_self) hargs.symm).elim
  · exact mangleRest_inj hM (hk.2 i mem_cons_self) (hl.2 j mem_cons_self)
      (fun id hid => hk.2 id (mem_cons_of_mem _ hid))
      (fun id hid => hl.2 id (mem_cons_of_mem _ hid)) hargs

end

/-- Two ids of the type `a_b<int>`, the second with arguments of its own in the pool. -/
def twice : Mangler where
  symbols := ⟨["len".toList, "a_b".toList], [(0, "std.len".toList)]⟩
  interner := ⟨⟨[.primitive .int, .named 1 ⟨0, 1⟩, .named 1 ⟨1, 1⟩]⟩, [0, 0], by decide⟩
  digest _ := replicate 64 '0'

theorem mangleSymbol_injective_twice : Forall₂ (SameType twice.interner) [1] [2] := by
  have hM : twice.Distinct := by
    refine ⟨by decide, by decide, fun _ => rfl, ?_⟩
    simp [twice]
  have htypes : ∀ id < 3, twice.IsConcrete (twice.interner.resolve id)
    | 0, _ => trivial
    | 1, _ | 2, _ => Nat.one_lt_two
  have hconcrete : ∀ id < 3, twice.ConcreteType id := fun id hid =>
    .of_types htypes (Interner.resolve_valid hid) (htypes id hid)
  have hname : twice.mangleType 1 = twice.mangleType 2 := by
    rw [mangleType, mangleType]
    rfl
  refine (mangleSymbol_injective hM (k := ⟨0, [1]⟩) (l := ⟨0, [2]⟩) ⟨by decide, ?_⟩
    ⟨by decide, ?_⟩ ?_).2
  · simpa using hconcrete 1 (by decide)
  · simpa using hconcrete 2 (by decide)
  · simp only [mangleSymbol, hname]

end Mangler

end Middle

end Arandu
