import Jato.Jit.Interval

/-!
# Method descriptors

The descriptor reader of `vm/types.c`, on C strings (`parseMethodType`), beside the descriptor grammar of the virtual
machine (`IsMethodDescriptor`). What the reader takes is described by type trees: `parseType_sound` and
`parseType_complete` say that it reads exactly the texts of the trees with `TypeTree.Readable`, and
`parseMethodType_correct_iff` that it is right on a string unless the string has a void parameter, an array of void or
a malformed class name.
-/

namespace Jato.Vm

open List Option

open Jato.Jit (VmType)

/-- A zero-terminated string, without its terminator. -/
def CString : Type := { s : List Char // '\x00' ∉ s }

/-- `struct vm_type_info`. -/
structure VmTypeInfo where
  vmType : VmType
  className : List Char
deriving DecidableEq, Repr

/-! ## The reader -/

def strToType : List Char → VmType
  | 'V' :: _ => .void
  | 'B' :: _ => .byte
  | 'C' :: _ => .char
  | 'D' :: _ => .double
  | 'F' :: _ => .float
  | 'I' :: _ => .int
  | 'J' :: _ => .long
  | 'S' :: _ => .short
  | 'Z' :: _ => .boolean
  | _ => .reference

/-- The base types of the field descriptors. -/
def baseTypes : List Char := ['B', 'C', 'D', 'F', 'I', 'J', 'S', 'Z']

/-- The one-character types that the reader knows: void is one of them. -/
def oneCharTypes : List Char := 'V' :: baseTypes

/-- What stands behind the class name that `s` starts with, and its semicolon. The first character of the name is not
compared with the semicolon. -/
def parseClassName : List Char → Option (List Char)
  | [] => none
  | _ :: ';' :: rest => some rest
  | _ :: s => parseClassName s

def parseArrayElementType : List Char → Option (List Char)
  | '[' :: s => parseArrayElementType s
  | 'L' :: s => parseClassName s
  | c :: s => if c ∈ oneCharTypes then some s else none
  | [] => none

/-- The type that `s` starts with, and what stands behind it. The name of an array class is its whole descriptor. -/
def parseType : List Char → Option (VmTypeInfo × List Char)
  | '[' :: s => (parseArrayElementType s).map fun rest =>
    (⟨.reference, ('[' :: s).take (('[' :: s).length - rest.length)⟩, rest)
  | 'L' :: s => (parseClassName s).map fun rest => (⟨.reference, s.take (s.length - rest.length - 1)⟩, rest)
  | c :: s => if c ∈ oneCharTypes then some (⟨strToType [c], [c]⟩, s) else none
  | [] => none

/-- What `parse_method_type` records. -/
structure MethodType where
  args : List VmTypeInfo
  returnType : VmTypeInfo
deriving DecidableEq, Repr

/-- The loop over the parameters. Every round reads at least one character, so `s.length` rounds are enough. -/
def parseArgs : Nat → List Char → Option (List VmTypeInfo × List Char)
  | _, ')' :: s => some ([], s)
  | 0, _ => none
  | fuel + 1, s => do
    let (arg, s) ← parseType s
    let (args, s) ← parseArgs fuel s
    return (arg :: args, s)

def parseMethodType (type : CString) : Option MethodType :=
  match type.1 with
  | '(' :: s => do
    let (args, s) ← parseArgs s.length s
    let (returnType, s) ← parseType s
    -- junk after the return type
    if s = [] then some ⟨args, returnType⟩ else none
  | _ => none

/-! ## The grammar -/

/-- The syntax of a type. -/
inductive TypeTree
  | oneChar (c : Char)
  | object (name : List Char)
  | array (element : TypeTree)
deriving DecidableEq, Repr

namespace TypeTree

def text : TypeTree → List Char
  | oneChar c => [c]
  | object name => 'L' :: (name ++ [';'])
  | array t => '[' :: t.text

/-- The leaf of the type is one of the given one-character types or has one of the given names. -/
def Leaf (one : Char → Prop) (named : List Char → Prop) : TypeTree → Prop
  | oneChar c => one c
  | object name => named name
  | array t => t.Leaf one named

end TypeTree

/-- A class name in internal form: non-empty identifiers with a slash between them. -/
def IsClassName (name : List Char) : Prop :=
  ('.' ∉ name ∧ ';' ∉ name ∧ '[' ∉ name) ∧ ∀ identifier ∈ name.splitOn '/', identifier ≠ []

/-- A type that a field or a parameter can have. -/
def IsFieldType (t : TypeTree) : Prop := t.Leaf (· ∈ baseTypes) IsClassName

/-- A type that a method can return. -/
def IsReturnType (t : TypeTree) : Prop := t = .oneChar 'V' ∨ IsFieldType t

def methodText (params : List TypeTree) (ret : TypeTree) : List Char :=
  '(' :: (params.flatMap TypeTree.text ++ ')' :: ret.text)

/-- The method descriptors of the virtual machine. -/
def IsMethodDescriptor (s : CString) : Prop :=
  ∃ params ret, (∀ p ∈ params, IsFieldType p) ∧ IsReturnType ret ∧ s.1 = methodText params ret

/-- The descriptor of a recorded type. -/
def VmTypeInfo.descriptor (info : VmTypeInfo) : List Char :=
  if info.vmType = .reference then
    if info.className.head? = some '[' then info.className else 'L' :: (info.className ++ [';'])
  else info.className

def MethodType.descriptor (m : MethodType) : List Char :=
  '(' :: (m.args.flatMap VmTypeInfo.descriptor ++ ')' :: m.returnType.descriptor)

/-! ## What the reader takes -/

/-- The names that the reader takes: the first character is free, and the next semicolon ends the name. -/
def ReadableName (name : List Char) : Prop := ∃ c cs, name = c :: cs ∧ ';' ∉ cs

namespace TypeTree

/-- The types that the reader takes. -/
def Readable (t : TypeTree) : Prop := t.Leaf (· ∈ oneCharTypes) ReadableName

/-- No void inside the type, and class names only. -/
def Plain (t : TypeTree) : Prop := t.Leaf (· ≠ 'V') IsClassName

/-- What the reader records for the type. -/
def info : TypeTree → VmTypeInfo
  | oneChar c => ⟨strToType [c], [c]⟩
  | object name => ⟨.reference, name⟩
  | array t => ⟨.reference, '[' :: t.text⟩

end TypeTree

theorem readableName_of_isClassName {name : List Char} (h : IsClassName name) : ReadableName name := by
  obtain ⟨⟨-, hsemi, -⟩, hparts⟩ := h
  cases name with
  | nil => exact absurd rfl (hparts [] (by simp [List.splitOn]))
  | cons c cs => exact ⟨c, cs, rfl, fun hm => hsemi (mem_cons_of_mem c hm)⟩

variable {rest s : List Char}

theorem parseClassName_iff : parseClassName s = some rest ↔ ∃ name, ReadableName name ∧ s = name ++ ';' :: rest := by
  fun_induction parseClassName s with
  | case1 =>
    simp
  | case2 c after =>
    constructor
    · intro h
      exact ⟨[c], ⟨c, [], rfl, not_mem_nil⟩, by simp [Option.some.inj h]⟩
    · rintro ⟨-, ⟨c', cs, rfl, hcs⟩, heq⟩
      cases cs with
      | nil => simp_all
      | cons d ds => simp_all
  | case3 c s hne ih =>
    rw [ih]
    constructor
    · rintro ⟨-, ⟨d, ds, rfl, hds⟩, hs⟩
      refine ⟨c :: d :: ds, ⟨c, d :: ds, rfl, fun hm => ?_⟩, by rw [hs]; rfl⟩
      rcases mem_cons.mp hm with rfl | hm
      · exact hne _ hs
      · exact hds hm
    · rintro ⟨-, ⟨c', cs, rfl, hcs⟩, heq⟩
      obtain ⟨-, hs⟩ := List.cons.inj heq
      cases cs with
      | nil => exact absurd hs (hne rest)
      | cons d ds => exact ⟨d :: ds, ⟨d, ds, rfl, fun hm => hcs (mem_cons_of_mem d hm)⟩, hs⟩

theorem not_mem_oneCharTypes : 'L' ∉ oneCharTypes ∧ '[' ∉ oneCharTypes ∧ ')' ∉ oneCharTypes := by decide

theorem parseArrayElementType_iff :
    parseArrayElementType s = some rest ↔ ∃ t : TypeTree, t.Readable ∧ s = t.text ++ rest := by
  obtain ⟨hL, hA, -⟩ := not_mem_oneCharTypes
  fun_induction parseArrayElementType s with
  | case1 s ih =>
    rw [ih]
    constructor
    · rintro ⟨t, ht, rfl⟩
      exact ⟨.array t, ht, rfl⟩
    · rintro ⟨_ | _ | t, ht, heq⟩
      · exact absurd (List.cons.inj heq).1 (fun h => hA (h ▸ ht))
      · exact absurd (List.cons.inj heq).1 (by decide)
      · exact ⟨t, ht, (List.cons.inj heq).2⟩
  | case2 s =>
    rw [parseClassName_iff]
    constructor
    · rintro ⟨name, hn, rfl⟩
      exact ⟨.object name, hn, by simp [TypeTree.text]⟩
    · rintro ⟨_ | name | _, ht, heq⟩
      · exact absurd (List.cons.inj heq).1 (fun h => hL (h ▸ ht))
      · exact ⟨name, ht, by simpa [TypeTree.text] using heq⟩
      · exact absurd (List.cons.inj heq).1 (by decide)
  | case3 c s hnA hnL hc =>
    constructor
    · intro h
      exact ⟨.oneChar c, hc, by simp [TypeTree.text, Option.some.inj h]⟩
    · rintro ⟨d | _ | _, ht, heq⟩
      · exact congrArg some (List.cons.inj heq).2
      · exact absurd (List.cons.inj heq).1 hnL
      · exact absurd (List.cons.inj heq).1 hnA
  | case4 c s hnA hnL hc =>
    constructor
    · simp
    · rintro ⟨d | _ | _, ht, heq⟩
      · exact absurd ht ((List.cons.inj heq).1 ▸ hc)
      · exact absurd (List.cons.inj heq).1 hnL
      · exact absurd (List.cons.inj heq).1 hnA
  | case5 =>
    constructor
    · simp
    · rintro ⟨_ | _ | _, -, heq⟩ <;> cases heq

variable {t : TypeTree}

/-- **The reader takes the text of a readable type** and leaves what follows. -/
theorem parseType_complete (ht : t.Readable) (rest : List Char) : parseType (t.text ++ rest) = some (t.info, rest) := by
  obtain ⟨hL, hA, -⟩ := not_mem_oneCharTypes
  cases t with
  | oneChar c =>
    have hc : c ∈ oneCharTypes := ht
    have hnA : c = '[' → False := fun h => hA (h ▸ hc)
    have hnL : c = 'L' → False := fun h => hL (h ▸ hc)
    rw [TypeTree.text, singleton_append, parseType.eq_3 _ _ hnA hnL, if_pos hc]
    rfl
  | object name =>
    have hp : parseClassName (name ++ ';' :: rest) = some rest := parseClassName_iff.mpr ⟨name, ht, rfl⟩
    simp only [TypeTree.text, cons_append, append_assoc, nil_append, parseType, hp, map_some,
      TypeTree.info]
    congr 3
    rw [show (name ++ ';' :: rest).length - rest.length - 1 = name.length by simp; omega]
    exact take_left
  | array t =>
    have hp : parseArrayElementType (t.text ++ rest) = some rest := parseArrayElementType_iff.mpr ⟨t, ht, rfl⟩
    simp only [TypeTree.text, cons_append, parseType, hp, map_some, TypeTree.info]
    congr 3
    rw [← cons_append, length_append, Nat.add_sub_cancel]
    exact take_left

/-- **Only the texts of readable types are taken.** -/
theorem parseType_sound {info : VmTypeInfo} (h : parseType s = some (info, rest)) :
    ∃ t : TypeTree, t.Readable ∧ s = t.text ++ rest ∧ info = t.info := by
  suffices hs : ∃ t : TypeTree, t.Readable ∧ s = t.text ++ rest by
    obtain ⟨t, ht, rfl⟩ := hs
    rw [parseType_complete ht] at h
    cases h
    exact ⟨t, ht, rfl, rfl⟩
  revert h
  fun_cases parseType s with
  | case1 s =>
    intro h
    obtain ⟨r, hr, heq⟩ := map_eq_some_iff.mp h
    obtain ⟨t, ht, rfl⟩ := parseArrayElementType_iff.mp hr
    cases heq
    exact ⟨.array t, ht, rfl⟩
  | case2 s =>
    intro h
    obtain ⟨r, hr, heq⟩ := map_eq_some_iff.mp h
    obtain ⟨name, hn, rfl⟩ := parseClassName_iff.mp hr
    cases heq
    exact ⟨.object name, hn, by simp [TypeTree.text]⟩
  | case3 c s _ _ hc =>
    intro h
    cases h
    exact ⟨.oneChar c, hc, rfl⟩
  | case4 => simp
  | case5 => simp

theorem TypeTree.Readable.text_ne (ht : t.Readable) : ∃ c cs, t.text = c :: cs ∧ c ≠ ')' := by
  obtain ⟨-, -, hP⟩ := not_mem_oneCharTypes
  cases t with
  | oneChar c => exact ⟨c, [], rfl, fun h => hP (h ▸ ht)⟩
  | object name => exact ⟨'L', name ++ [';'], rfl, by decide⟩
  | array t => exact ⟨'[', t.text, rfl, by decide⟩

/-- Enough rounds of the loop read the parameters up to the parenthesis. -/
theorem parseArgs_complete : ∀ {params : List TypeTree} {fuel : Nat},
    (∀ p ∈ params, p.Readable) → params.length ≤ fuel →
    parseArgs fuel (params.flatMap TypeTree.text ++ ')' :: rest) = some (params.map TypeTree.info, rest)
  | [], fuel, _, _ => by cases fuel <;> rfl
  | p :: params, 0, _, hf => absurd hf (Nat.not_succ_le_zero _)
  | p :: params, fuel + 1, hp, hf => by
    have hread := parseType_complete (hp p mem_cons_self) (params.flatMap TypeTree.text ++ ')' :: rest)
    have hargs : parseArgs fuel (params.flatMap TypeTree.text ++ ')' :: rest) = some (params.map TypeTree.info, rest) :=
      parseArgs_complete (fun q hq => hp q (mem_cons_of_mem p hq)) (Nat.le_of_succ_le_succ hf)
    obtain ⟨c, cs, htext, hc⟩ := (hp p mem_cons_self).text_ne
    rw [flatMap_cons, append_assoc]
    rw [htext, cons_append] at hread ⊢
    rw [parseArgs.eq_3 _ _ (fun s h => hc (List.cons.inj h).1), hread]
    simp [hargs]

theorem parseArgs_sound : ∀ {fuel : Nat} {s : List Char} {infos : List VmTypeInfo},
    parseArgs fuel s = some (infos, rest) → ∃ params : List TypeTree, (∀ p ∈ params, p.Readable) ∧
      s = params.flatMap TypeTree.text ++ ')' :: rest ∧ infos = params.map TypeTree.info := by
  intro fuel s
  fun_induction parseArgs fuel s with
  | case1 =>
    intro infos h
    cases h
    exact ⟨[], nofun, rfl, rfl⟩
  | case2 => nofun
  | case3 fuel s hne ih =>
    intro infos h
    obtain ⟨⟨arg, s₁⟩, harg, h⟩ := bind_eq_some_iff.mp h
    obtain ⟨⟨args, s₂⟩, hargs, h⟩ := bind_eq_some_iff.mp h
    cases h
    obtain ⟨t, ht, rfl, rfl⟩ := parseType_sound harg
    obtain ⟨params, hp, rfl, rfl⟩ := ih _ hargs
    refine ⟨t :: params, ?_, by simp, rfl⟩
    intro q hq
    rcases mem_cons.mp hq with rfl | hq
    · exact ht
    · exact hp q hq

/-! ## Method descriptors -/

section Method

variable {s : CString} {params params' : List TypeTree} {ret ret' : TypeTree}

/-- The reader sees `s` as these parameters and this return type. -/
structure ReadAs (s : CString) (params : List TypeTree) (ret : TypeTree) : Prop where
  readable : ∀ p ∈ params, p.Readable
  readableRet : ret.Readable
  text : s.1 = methodText params ret

theorem length_le_flatMap_text : ∀ {params : List TypeTree}, (∀ p ∈ params, p.Readable) →
    params.length ≤ (params.flatMap TypeTree.text).length
  | [], _ => Nat.le_refl 0
  | p :: params, hp => by
    have ih := length_le_flatMap_text fun q hq => hp q (mem_cons_of_mem p hq)
    obtain ⟨c, cs, htext, -⟩ := (hp p mem_cons_self).text_ne
    simp only [flatMap_cons, length_append, length_cons, htext]
    omega

theorem parseMethodType_of_readAs (h : ReadAs s params ret) :
    parseMethodType s = some ⟨params.map TypeTree.info, ret.info⟩ := by
  have hfuel : params.length ≤ (params.flatMap TypeTree.text ++ ')' :: ret.text).length := by
    rw [length_append]
    exact Nat.le_trans (length_le_flatMap_text h.readable) (Nat.le_add_right _ _)
  have hret : parseType ret.text = some (ret.info, []) := by simpa using parseType_complete h.readableRet []
  simp only [parseMethodType, h.text, methodText, parseArgs_complete h.readable hfuel, hret, bind_eq_bind,
    bind_some, if_true]

theorem readAs_of_parseMethodType {m : MethodType} (h : parseMethodType s = some m) :
    ∃ params ret, ReadAs s params ret ∧ m = ⟨params.map TypeTree.info, ret.info⟩ := by
  revert h
  fun_cases parseMethodType s with
  | case1 cs hs =>
    intro h
    obtain ⟨⟨args, s₁⟩, hargs, h⟩ := bind_eq_some_iff.mp h
    obtain ⟨⟨returnType, s₂⟩, hret, h⟩ := bind_eq_some_iff.mp h
    obtain ⟨rfl, hm⟩ := ite_none_right_eq_some.mp h
    obtain ⟨params, hp, rfl, rfl⟩ := parseArgs_sound hargs
    obtain ⟨ret, hr, rfl, rfl⟩ := parseType_sound hret
    cases hm
    exact ⟨params, ret, ⟨hp, hr, by rw [hs, methodText, append_nil]⟩, rfl⟩
  | case2 => simp

theorem text_inj : ∀ {t t' : TypeTree}, t.Readable → t'.Readable → t.text = t'.text → t = t'
  | .oneChar c, t', ht, ht', h => by
    obtain ⟨hL, hA, -⟩ := not_mem_oneCharTypes
    cases t' with
    | oneChar c' => rw [(List.cons.inj h).1]
    | object name => exact absurd ht ((List.cons.inj h).1 ▸ hL)
    | array t => exact absurd ht ((List.cons.inj h).1 ▸ hA)
  | .object name, t', ht, ht', h => by
    cases t' with
    | oneChar c' => exact absurd ht' ((List.cons.inj h).1 ▸ not_mem_oneCharTypes.1)
    | object name' => rw [append_left_injective _ (List.cons.inj h).2]
    | array t => exact absurd (List.cons.inj h).1 (by decide)
  | .array t, t', ht, ht', h => by
    cases t' with
    | oneChar c' => exact absurd ht' ((List.cons.inj h).1 ▸ not_mem_oneCharTypes.2.1)
    | object name' => exact absurd (List.cons.inj h).1 (by decide)
    | array t' =>
      have ih : t = t' := text_inj ht ht' (List.cons.inj h).2
      rw [ih]

/-- No readable text is the start of another. -/
theorem text_append_inj {t' : TypeTree} {r r' : List Char} (ht : t.Readable) (ht' : t'.Readable)
    (h : t.text ++ r = t'.text ++ r') : t = t' ∧ r = r' := by
  have hr := parseType_complete ht r
  rw [h, parseType_complete ht' r'] at hr
  obtain ⟨-, rfl⟩ := Prod.mk.inj (Option.some.inj hr)
  exact ⟨text_inj ht ht' (append_left_injective _ h), rfl⟩

theorem params_inj {r r' : List Char} : ∀ {params params' : List TypeTree}, (∀ p ∈ params, p.Readable) →
    (∀ p ∈ params', p.Readable) →
    params.flatMap TypeTree.text ++ ')' :: r = params'.flatMap TypeTree.text ++ ')' :: r' → params = params' ∧ r = r'
  | [], [], _, _, h => ⟨rfl, (List.cons.inj h).2⟩
  | [], p :: ps, _, hp', h => by
    obtain ⟨c, cs, htext, hc⟩ := (hp' p mem_cons_self).text_ne
    rw [flatMap_cons, htext] at h
    exact absurd (List.cons.inj h).1.symm hc
  | p :: ps, [], hp, _, h => by
    obtain ⟨c, cs, htext, hc⟩ := (hp p mem_cons_self).text_ne
    rw [flatMap_cons, htext] at h
    exact absurd (List.cons.inj h).1 hc
  | p :: ps, p' :: ps', hp, hp', h => by
    rw [flatMap_cons, flatMap_cons, append_assoc, append_assoc] at h
    obtain ⟨rfl, hrest⟩ := text_append_inj (hp p mem_cons_self) (hp' p' mem_cons_self) h
    obtain ⟨rfl, hr⟩ := params_inj (fun q hq => hp q (mem_cons_of_mem p hq))
      (fun q hq => hp' q (mem_cons_of_mem p hq)) hrest
    exact ⟨rfl, hr⟩

theorem ReadAs.unique (h : ReadAs s params ret) (h' : ReadAs s params' ret') : params = params' ∧ ret = ret' := by
  have heq := h.text.symm.trans h'.text
  obtain ⟨hparams, hret⟩ := params_inj h.readable h'.readable (List.cons.inj heq).2
  exact ⟨hparams, text_inj h.readableRet h'.readableRet hret⟩

theorem Leaf.mono {one one' : Char → Prop} {named named' : List Char → Prop} (hone : ∀ c, one c → one' c)
    (hnamed : ∀ n, named n → named' n) : ∀ {t : TypeTree}, t.Leaf one named → t.Leaf one' named'
  | .oneChar c, h => hone c h
  | .object n, h => hnamed n h
  | .array t, h => Leaf.mono (t := t) hone hnamed h

theorem mem_oneCharTypes {c : Char} : c ∈ oneCharTypes ↔ c = 'V' ∨ c ∈ baseTypes := mem_cons

theorem readable_of_isFieldType (h : IsFieldType t) : t.Readable :=
  Leaf.mono (fun _ hc => mem_oneCharTypes.mpr (.inr hc)) (fun _ => readableName_of_isClassName) h

theorem readable_of_isReturnType {t : TypeTree} : IsReturnType t → t.Readable
  | .inl h => h ▸ mem_oneCharTypes.mpr (.inl rfl)
  | .inr h => readable_of_isFieldType h

theorem plain_of_isFieldType (h : IsFieldType t) : t.Plain :=
  Leaf.mono (fun c hc hV => absurd (hV ▸ hc) (by decide)) (fun _ hn => hn) h

theorem isFieldType_of_plain : ∀ {t : TypeTree}, t.Readable → t.Plain → IsFieldType t
  | .oneChar _, hr, hp => (mem_oneCharTypes.mp hr).resolve_left hp
  | .object _, _, hp => hp
  | .array t, hr, hp => isFieldType_of_plain (t := t) hr hp

/-- A one-character type is not recorded as a reference. -/
theorem strToType_ne_reference : ∀ c ∈ oneCharTypes, strToType [c] ≠ .reference := by
  simp [oneCharTypes, baseTypes, strToType]

theorem descriptor_info (hr : t.Readable) (hp : t = .oneChar 'V' ∨ t.Plain) : t.info.descriptor = t.text := by
  cases t with
  | oneChar c => exact if_neg (strToType_ne_reference c hr)
  | object name =>
    have hname : IsClassName name := hp.resolve_left (by simp)
    have hhead : name.head? ≠ some '[' := fun h => hname.1.2.2 (mem_of_mem_head? h)
    exact if_neg hhead
  | array t => rfl

/-- The reader is right on `s`: it takes `s` when `s` is a method descriptor, and what it records prints as `s`. -/
def ReadsCorrectly (s : CString) : Prop :=
  ((parseMethodType s).isSome ↔ IsMethodDescriptor s) ∧ ∀ m, parseMethodType s = some m → m.descriptor = s.1

/-- However `s` is split into types: no parameter is void, no array has void elements, and the class names are in
internal form. -/
def WellNamed (s : CString) : Prop :=
  ∀ params ret, ReadAs s params ret → (∀ p ∈ params, p.Plain) ∧ (ret = .oneChar 'V' ∨ ret.Plain)

theorem isMethodDescriptor_of_wellNamed (hs : WellNamed s) (h : ReadAs s params ret) : IsMethodDescriptor s := by
  obtain ⟨hparams, hret⟩ := hs params ret h
  refine ⟨params, ret, fun p hp => isFieldType_of_plain (h.readable p hp) (hparams p hp), ?_, h.text⟩
  exact hret.imp_right (isFieldType_of_plain h.readableRet)

theorem descriptor_eq_of_wellNamed (hs : WellNamed s) (h : ReadAs s params ret) :
    MethodType.descriptor ⟨params.map TypeTree.info, ret.info⟩ = s.1 := by
  obtain ⟨hparams, hret⟩ := hs params ret h
  have hargs : (params.map TypeTree.info).flatMap VmTypeInfo.descriptor = params.flatMap TypeTree.text := by
    rw [flatMap_map]
    exact flatMap_congr fun p hp => descriptor_info (h.readable p hp) (.inr (hparams p hp))
  rw [h.text, methodText, MethodType.descriptor, hargs, descriptor_info h.readableRet hret]

/-- **Where the reader is right.** It takes exactly the method descriptors, and prints back what it records, unless
void stands as a parameter or as the element of an array, or a class name is not one. -/
theorem parseMethodType_correct_iff (s : CString) : ReadsCorrectly s ↔ WellNamed s := by
  constructor
  · rintro ⟨hacc, -⟩ params ret h
    have hsome : (parseMethodType s).isSome := by rw [parseMethodType_of_readAs h]; rfl
    obtain ⟨params', ret', hparams, hret, htext⟩ := hacc.mp hsome
    have h' : ReadAs s params' ret' :=
      ⟨fun p hp => readable_of_isFieldType (hparams p hp), readable_of_isReturnType hret, htext⟩
    obtain ⟨rfl, rfl⟩ := h.unique h'
    exact ⟨fun p hp => plain_of_isFieldType (hparams p hp), hret.imp_right plain_of_isFieldType⟩
  · intro hs
    refine ⟨⟨fun hsome => ?_, ?_⟩, fun m hm => ?_⟩
    · obtain ⟨m, hm⟩ := isSome_iff_exists.mp hsome
      obtain ⟨params, ret, h, -⟩ := readAs_of_parseMethodType hm
      exact isMethodDescriptor_of_wellNamed hs h
    · rintro ⟨params, ret, hparams, hret, htext⟩
      rw [parseMethodType_of_readAs ⟨fun p hp => readable_of_isFieldType (hparams p hp),
        readable_of_isReturnType hret, htext⟩]
      rfl
    · obtain ⟨params, ret, h, rfl⟩ := readAs_of_parseMethodType hm
      exact descriptor_eq_of_wellNamed hs h

/-- A method with one parameter of type void is taken. -/
theorem parseMethodType_void_parameter :
    (parseMethodType ⟨"(V)V".toList, by decide⟩).isSome = true ∧ ¬ IsMethodDescriptor ⟨"(V)V".toList, by decide⟩ := by
  refine ⟨by decide, ?_⟩
  rintro ⟨params, ret, hparams, hret, htext⟩
  have h : ReadAs ⟨"(V)V".toList, by decide⟩ params ret :=
    ⟨fun p hp => readable_of_isFieldType (hparams p hp), readable_of_isReturnType hret, htext⟩
  have h' : ReadAs ⟨"(V)V".toList, by decide⟩ [.oneChar 'V'] (.oneChar 'V') :=
    ⟨by simp [TypeTree.Readable, TypeTree.Leaf, oneCharTypes], mem_oneCharTypes.mpr (.inl rfl), rfl⟩
  obtain ⟨rfl, -⟩ := h.unique h'
  exact absurd (hparams _ mem_cons_self) (by simp [IsFieldType, TypeTree.Leaf, baseTypes])

end Method

end Jato.Vm
