import Mathlib.Logic.Relation
import Mathlib.Tactic.Common

/-!
# Assignability of classes

`vm_class_is_assignable_from` with its supertype cache, over the classes that a virtual machine has loaded, beside the
subtype relation of the Java language (`IsSubtype`). The cache never changes an answer (`isAssignableFrom_eq`), and
`isAssignableFrom_correct_iff` names the pairs on which the answer is wrong: two arrays whose elements are not
assignable, an array and `Serializable`, and a primitive class and `Object`.
-/

namespace Jato.Vm

/-! ## Loaded classes -/

/-- `enum vm_class_kind`, with the element class of an array class. -/
inductive ClassKind (C : Type)
  | regular
  | primitive
  | array (element : C)
deriving DecidableEq

/-- The part of `struct vm_class` that decides about subtypes. -/
structure VmClass (C : Type) where
  kind : ClassKind C
  isInterface : Bool
  super : Option C
  interfaces : List C

/-- Loaded classes that are well formed. A class is loaded after the classes it names, so `rank` grows along
superclasses, superinterfaces and element classes. `Object` is a regular class without supertypes, every other regular
class has a superclass that is a regular class and no interface, an interface has the superclass `Object`, and the
superinterfaces of a class and `Serializable` are interfaces: class files that say otherwise are linked, but are outside
this model. Array and primitive classes are as `vm_class_link_array_class` and `vm_class_link_primitive_class` make
them. -/
structure Hierarchy (C : Type) where
  cls : C → VmClass C
  object : C
  cloneable : C
  serializable : Option C
  rank : C → Nat
  rank_super : ∀ {c s}, (cls c).super = some s → rank s < rank c
  rank_interface : ∀ {c i}, i ∈ (cls c).interfaces → rank i < rank c
  rank_element : ∀ {c e}, (cls c).kind = .array e → rank e < rank c
  object_root : cls object = ⟨.regular, false, none, []⟩
  regular_super : ∀ {c}, (cls c).kind = .regular → c ≠ object →
    ∃ s, (cls c).super = some s ∧ (cls s).kind = .regular ∧ (cls s).isInterface = false
  interface_kind : ∀ {c}, (cls c).isInterface = true → (cls c).kind = .regular ∧ (cls c).super = some object
  interfaces_are : ∀ {c i}, i ∈ (cls c).interfaces → (cls i).isInterface = true
  array_class : ∀ {c e}, (cls c).kind = .array e → (cls c).super = some object ∧ (cls c).interfaces = [cloneable]
  primitive_class : ∀ {c}, (cls c).kind = .primitive → (cls c).super = some object ∧ (cls c).interfaces = []
  serializable_interface : ∀ {z}, serializable = some z → (cls z).isInterface = true

/-! ## The code -/

section Code

variable {C : Type} [DecidableEq C] (H : Hierarchy C)

/-- The loop of `vm_class_is_subclass_of`; a class has fewer superclasses than its rank. -/
def superLoop (vmc : C) : Nat → Option C → Bool
  | fuel + 1, some super => vmc == super || superLoop vmc fuel (H.cls super).super
  | _, _ => false

def isSubclassOf (vmc source : C) : Bool := superLoop H vmc (H.rank source) (H.cls source).super

/-- `vm_class_implements`, to a depth. -/
def implementsTo (vmc : C) : Nat → C → Bool
  | 0, _ => false
  | fuel + 1, source =>
    ((H.cls source).interfaces.any fun i => vmc == i || implementsTo vmc fuel i) ||
      match (H.cls source).super with
      | some super => implementsTo vmc fuel super
      | none => false

def implements (vmc source : C) : Bool := implementsTo H vmc (H.rank source + 1) source

/-- `vm_class_is_assignable_from_nocache`, to a depth of array dimensions. The element class is taken from `vmc` for
both sides, as `vm_class_is_instance_of_array` does. -/
def isAssignableTo (vmc source : C) : Nat → Bool
  | 0 => false
  | fuel + 1 =>
    if vmc = source then true
    else if (H.cls vmc).isInterface then implements H vmc source
    else match (H.cls vmc).kind with
      | .array vmcEl => match (H.cls source).kind with
        | .array _ => isAssignableTo vmcEl vmcEl fuel
        | _ => false
      | _ => isSubclassOf H vmc source

def isAssignableFromNocache (vmc source : C) : Bool := isAssignableTo H vmc source (H.rank vmc + 1)

/-- The cache of a class: two classes that are assignable to it, and the count of the updates. -/
structure SupertypeCache (C : Type) where
  first : Option C
  second : Option C
  ndx : Nat

def SupertypeCache.test (cache : SupertypeCache C) (super : C) : Bool :=
  cache.first == some super || cache.second == some super

def SupertypeCache.update (cache : SupertypeCache C) (super : C) : SupertypeCache C :=
  if cache.ndx % 2 = 0 then ⟨some super, cache.second, cache.ndx + 1⟩ else ⟨cache.first, some super, cache.ndx + 1⟩

/-- The caches of all classes. -/
abbrev Caches (C : Type) : Type := C → SupertypeCache C

def emptyCaches : Caches C := fun _ => ⟨none, none, 0⟩

def isAssignableFromSlow (caches : Caches C) (vmc source : C) : Bool × Caches C :=
  let ret := isAssignableFromNocache H vmc source
  (ret, if ret then fun c => if c = vmc then (caches vmc).update source else caches c else caches)

def isAssignableFrom (caches : Caches C) (vmc source : C) : Bool × Caches C :=
  if (caches vmc).test source then (true, caches) else isAssignableFromSlow H caches vmc source

/-- The caches after some queries. -/
def afterQueries (queries : List (C × C)) : Caches C :=
  queries.foldl (fun caches q => (isAssignableFrom H caches q.1 q.2).2) emptyCaches

end Code

/-! ## The subtype relation -/

section Spec

variable {C : Type} {H : Hierarchy C} {s t : C}

/-- The subtype relation: the direct supertypes of regular classes and interfaces, the supertypes that every array
has, and the covariance of arrays. A primitive class has no supertype but itself. -/
inductive IsSubtype (H : Hierarchy C) : C → C → Prop
  | refl (c : C) : IsSubtype H c c
  | super {s p t : C} : (H.cls s).kind = .regular → (H.cls s).super = some p → IsSubtype H p t → IsSubtype H s t
  | interface {s i t : C} : (H.cls s).kind = .regular → i ∈ (H.cls s).interfaces → IsSubtype H i t → IsSubtype H s t
  | arrayObject {s e t : C} : (H.cls s).kind = .array e → IsSubtype H H.object t → IsSubtype H s t
  | arrayCloneable {s e t : C} : (H.cls s).kind = .array e → IsSubtype H H.cloneable t → IsSubtype H s t
  | arraySerializable {s e z t : C} : (H.cls s).kind = .array e → H.serializable = some z → IsSubtype H z t →
      IsSubtype H s t
  | array {s t e f : C} : (H.cls s).kind = .array e → (H.cls t).kind = .array f → IsSubtype H e f → IsSubtype H s t

/-- `p` is the superclass of `c`. -/
def Extends (H : Hierarchy C) (c p : C) : Prop := (H.cls c).super = some p

/-- `t` is an interface of `s`, of one of its interfaces or of its superclass. -/
inductive Implements (H : Hierarchy C) : C → C → Prop
  | direct {s t : C} : t ∈ (H.cls s).interfaces → Implements H s t
  | interface {s i t : C} : i ∈ (H.cls s).interfaces → Implements H i t → Implements H s t
  | super {s p t : C} : Extends H s p → Implements H p t → Implements H s t

/-! ## What the classes reach -/

theorem not_extends_object : ¬ Extends H H.object t := by
  intro h
  simp [Extends, H.object_root] at h

theorem kind_object : (H.cls H.object).kind = .regular := by rw [H.object_root]

theorem not_implements_object : ¬ Implements H H.object t := by
  intro h
  cases h with
  | direct hi | interface hi => simp [H.object_root] at hi
  | super hs => exact not_extends_object hs

theorem regular_of_interface {c i : C} (h : i ∈ (H.cls c).interfaces) : (H.cls i).kind = .regular :=
  (H.interface_kind (H.interfaces_are h)).1

theorem regular_of_super {p : C} (hk : (H.cls s).kind = .regular) (hs : Extends H s p) :
    (H.cls p).kind = .regular ∧ (H.cls p).isInterface = false := by
  by_cases ho : s = H.object
  · exact absurd (ho ▸ hs) not_extends_object
  · obtain ⟨q, hq, h⟩ := H.regular_super hk ho
    rw [Extends, hq] at hs
    cases hs
    exact h

theorem IsSubtype.regular_cases (h : IsSubtype H s t) (hk : (H.cls s).kind = .regular) :
    s = t ∨ (∃ p, Extends H s p ∧ IsSubtype H p t) ∨ ∃ i ∈ (H.cls s).interfaces, IsSubtype H i t := by
  cases h with
  | refl => exact .inl rfl
  | super _ hp h => exact .inr (.inl ⟨_, hp, h⟩)
  | interface _ hi h => exact .inr (.inr ⟨_, hi, h⟩)
  | arrayObject hk' | arrayCloneable hk' | arraySerializable hk' | array hk' => rw [hk] at hk'; cases hk'

theorem IsSubtype.primitive_eq (h : IsSubtype H s t) (hk : (H.cls s).kind = .primitive) : s = t := by
  cases h with
  | refl => rfl
  | super hk' | interface hk' | arrayObject hk' | arrayCloneable hk' | arraySerializable hk' | array hk' =>
    rw [hk] at hk'; cases hk'

theorem IsSubtype.array_cases {e : C} (h : IsSubtype H s t) (hk : (H.cls s).kind = .array e) :
    s = t ∨ IsSubtype H H.object t ∨ IsSubtype H H.cloneable t ∨
      (∃ z, H.serializable = some z ∧ IsSubtype H z t) ∨ ∃ f, (H.cls t).kind = .array f ∧ IsSubtype H e f := by
  cases h with
  | refl => exact .inl rfl
  | super hk' | interface hk' => rw [hk] at hk'; cases hk'
  | arrayObject _ h => exact .inr (.inl h)
  | arrayCloneable _ h => exact .inr (.inr (.inl h))
  | arraySerializable _ hz h => exact .inr (.inr (.inr (.inl ⟨_, hz, h⟩)))
  | array hk' hkt h =>
    rw [hk] at hk'
    cases hk'
    exact .inr (.inr (.inr (.inr ⟨_, hkt, h⟩)))

theorem IsSubtype.regular {s : C} (h : IsSubtype H s t) (hk : (H.cls s).kind = .regular) :
    (H.cls t).kind = .regular := by
  rcases h.regular_cases hk with rfl | ⟨p, hp, h⟩ | ⟨i, hi, h⟩
  · exact hk
  · exact h.regular (regular_of_super hk hp).1
  · exact h.regular (regular_of_interface hi)
termination_by H.rank s
decreasing_by
  · exact H.rank_super hp
  · exact H.rank_interface hi

theorem IsSubtype.eq_object (h : IsSubtype H H.object t) : t = H.object := by
  rcases h.regular_cases kind_object with rfl | ⟨p, hp, -⟩ | ⟨i, hi, -⟩
  · rfl
  · exact absurd hp not_extends_object
  · simp [H.object_root] at hi

/-- The only supertype of an interface that is not an interface is `Object`. -/
theorem IsSubtype.object_of_interface {s : C} (h : IsSubtype H s t) (hs : (H.cls s).isInterface = true)
    (ht : (H.cls t).isInterface = false) : t = H.object := by
  obtain ⟨hk, ho⟩ := H.interface_kind hs
  rcases h.regular_cases hk with rfl | ⟨p, hp, h⟩ | ⟨i, hi, h⟩
  · rw [hs] at ht
    cases ht
  · rw [Extends, ho] at hp
    cases hp
    exact h.eq_object
  · exact h.object_of_interface (H.interfaces_are hi) ht
termination_by H.rank s
decreasing_by exact H.rank_interface hi

theorem extends_object {c : C} (hk : (H.cls c).kind = .regular) : Relation.ReflTransGen (Extends H) c H.object := by
  by_cases ho : c = H.object
  · exact ho ▸ .refl
  · obtain ⟨p, hp, hkp, -⟩ := H.regular_super hk ho
    exact .head hp (extends_object hkp)
termination_by H.rank c
decreasing_by exact H.rank_super hp

theorem isSubtype_of_extends (hk : (H.cls s).kind = .regular) (h : Relation.ReflTransGen (Extends H) s t) :
    IsSubtype H s t := by
  induction h using Relation.ReflTransGen.head_induction_on with
  | refl => exact .refl t
  | head hp _ ih => exact .super hk hp (ih (regular_of_super hk hp).1)

/-- A supertype of a regular class that is not an interface is among its superclasses. -/
theorem IsSubtype.extends {s : C} (h : IsSubtype H s t) (hk : (H.cls s).kind = .regular)
    (ht : (H.cls t).isInterface = false) : Relation.ReflTransGen (Extends H) s t := by
  rcases h.regular_cases hk with rfl | ⟨p, hp, h⟩ | ⟨i, hi, h⟩
  · exact .refl
  · exact .head hp (h.extends (regular_of_super hk hp).1 ht)
  · rw [h.object_of_interface (H.interfaces_are hi) ht]
    exact extends_object hk
termination_by H.rank s
decreasing_by exact H.rank_super hp

theorem isSubtype_of_implements (hk : (H.cls s).kind = .regular) (h : Implements H s t) : IsSubtype H s t := by
  induction h with
  | direct hi => exact .interface hk hi (.refl _)
  | interface hi _ ih => exact .interface hk hi (ih (regular_of_interface hi))
  | super hp _ ih => exact .super hk hp (ih (regular_of_super hk hp).1)

/-- An interface that is a supertype of a regular class is implemented by it. -/
theorem IsSubtype.implements {s : C} (h : IsSubtype H s t) (hk : (H.cls s).kind = .regular)
    (ht : (H.cls t).isInterface = true) (hne : s ≠ t) : Implements H s t := by
  rcases h.regular_cases hk with rfl | ⟨p, hp, h⟩ | ⟨i, hi, h⟩
  · exact absurd rfl hne
  · obtain ⟨hkp, hip⟩ := regular_of_super hk hp
    have hpt : p ≠ t := by
      rintro rfl
      rw [ht] at hip
      cases hip
    exact .super hp (h.implements hkp ht hpt)
  · by_cases hit : i = t
    · exact hit ▸ .direct hi
    · exact .interface hi (h.implements (regular_of_interface hi) ht hit)
termination_by H.rank s
decreasing_by
  · exact H.rank_super hp
  · exact H.rank_interface hi

theorem transGen_object_iff (hs : Extends H s H.object) : Relation.TransGen (Extends H) s t ↔ t = H.object := by
  constructor
  · intro h
    obtain ⟨p, hp, h⟩ := Relation.TransGen.head'_iff.mp h
    rw [Extends, show (H.cls s).super = _ from hs] at hp
    cases hp
    rcases h.cases_head with rfl | ⟨q, hq, -⟩
    · rfl
    · exact absurd hq not_extends_object
  · rintro rfl
    exact .single hs

theorem implements_array_iff {e : C} (hk : (H.cls s).kind = .array e) (ht : (H.cls t).isInterface = true) :
    Implements H s t ↔ IsSubtype H H.cloneable t := by
  obtain ⟨hsuper, hint⟩ := H.array_class hk
  have hkc : (H.cls H.cloneable).kind = .regular := regular_of_interface (hint ▸ List.mem_singleton_self _)
  constructor
  · intro h
    cases h with
    | direct hi =>
      rw [hint, List.mem_singleton] at hi
      exact hi ▸ .refl _
    | interface hi h =>
      rw [hint, List.mem_singleton] at hi
      exact isSubtype_of_implements hkc (hi ▸ h)
    | super hp h =>
      rw [Extends, hsuper] at hp
      cases hp
      exact absurd h not_implements_object
  · intro h
    by_cases hc : H.cloneable = t
    · exact .direct (by rw [hint, hc]; exact List.mem_singleton_self t)
    · exact .interface (by rw [hint]; exact List.mem_singleton_self _) (h.implements hkc ht hc)

theorem ne_of_isInterface (hs : (H.cls s).kind ≠ .regular) (ht : (H.cls t).isInterface = true) : s ≠ t := by
  rintro rfl
  exact hs (H.interface_kind ht).1

section

variable {e : C} (hk : (H.cls s).kind = .array e)

include hk

theorem isInterface_cloneable : (H.cls H.cloneable).isInterface = true :=
  H.interfaces_are (by rw [(H.array_class hk).2]; exact List.mem_singleton_self _)

theorem isSubtype_array_interface (ht : (H.cls t).isInterface = true) :
    IsSubtype H s t ↔ IsSubtype H H.cloneable t ∨ ∃ z, H.serializable = some z ∧ IsSubtype H z t := by
  constructor
  · intro h
    rcases h.array_cases hk with rfl | h | h | h | ⟨f, hf, -⟩
    · rw [(H.interface_kind ht).1] at hk
      cases hk
    · rw [h.eq_object, H.object_root] at ht
      cases ht
    · exact .inl h
    · exact .inr h
    · rw [(H.interface_kind ht).1] at hf
      cases hf
  · rintro (h | ⟨z, hz, h⟩)
    · exact .arrayCloneable hk h
    · exact .arraySerializable hk hz h

/-- An array class has no superclass but `Object`, and arrays are covariant. -/
theorem isSubtype_array_class (ht : (H.cls t).isInterface = false)
    (hne : s ≠ t) : IsSubtype H s t ↔ t = H.object ∨ ∃ f, (H.cls t).kind = .array f ∧ IsSubtype H e f := by
  constructor
  · intro h
    rcases h.array_cases hk with heq | h | h | ⟨z, hz, h⟩ | h
    · exact absurd heq hne
    · exact .inl h.eq_object
    · exact .inl (h.object_of_interface (isInterface_cloneable hk) ht)
    · exact .inl (h.object_of_interface (H.serializable_interface hz) ht)
    · exact .inr h
  · rintro (rfl | ⟨f, hf, h⟩)
    · exact .arrayObject hk (.refl _)
    · exact .array hk hf h

end

/-- The pairs that are answered right. -/
structure WellAnswered (H : Hierarchy C) (t s : C) : Prop where
  arrays : ∀ e f, (H.cls s).kind = .array e → (H.cls t).kind = .array f → IsSubtype H e f
  serializable : ∀ e z, (H.cls s).kind = .array e → (H.cls t).isInterface = true → H.serializable = some z →
    IsSubtype H z t → IsSubtype H H.cloneable t
  primitive : (H.cls s).kind = .primitive → t ≠ H.object

theorem wellAnswered_self : WellAnswered H t t where
  arrays e f he hf := by
    rw [he] at hf
    cases hf
    exact .refl e
  serializable e _ he hi := by
    rw [(H.interface_kind hi).1] at he
    cases he
  primitive hk ho := by
    rw [ho, kind_object] at hk
    cases hk

theorem wellAnswered_of_regular (hk : (H.cls s).kind = .regular) : WellAnswered H t s where
  arrays e f he := by rw [hk] at he; cases he
  serializable e z he := by rw [hk] at he; cases he
  primitive hp := by rw [hk] at hp; cases hp

end Spec

/-! ## What the code answers -/

section Answers

variable {C : Type} [DecidableEq C] {H : Hierarchy C} {s t : C}

theorem superLoop_iff : ∀ {fuel : Nat} {o : Option C}, (∀ p, o = some p → H.rank p < fuel) →
    (superLoop H t fuel o = true ↔ ∃ p, o = some p ∧ Relation.ReflTransGen (Extends H) p t)
  | 0, none, _ => by simp [superLoop]
  | 0, some p, h => absurd (h p rfl) (Nat.not_lt_zero _)
  | _ + 1, none, _ => by simp [superLoop]
  | fuel + 1, some p, h => by
    have hlt : ∀ q, (H.cls p).super = some q → H.rank q < fuel := fun q hq =>
      Nat.lt_of_lt_of_le (H.rank_super hq) (Nat.le_of_lt_succ (h p rfl))
    have ih := superLoop_iff hlt
    simp only [superLoop, Bool.or_eq_true, beq_iff_eq, ih, Option.some.injEq, exists_eq_left']
    rw [Relation.ReflTransGen.cases_head_iff]
    exact or_congr eq_comm Iff.rfl

theorem isSubclassOf_iff : isSubclassOf H t s = true ↔ Relation.TransGen (Extends H) s t := by
  rw [isSubclassOf, superLoop_iff fun p hp => H.rank_super hp, Relation.TransGen.head'_iff]
  rfl

theorem implementsTo_iff : ∀ {fuel : Nat} {s : C}, H.rank s < fuel →
    (implementsTo H t fuel s = true ↔ Implements H s t)
  | 0, _, h => absurd h (Nat.not_lt_zero _)
  | fuel + 1, s, h => by
    have hle := Nat.le_of_lt_succ h
    have hi : ∀ i ∈ (H.cls s).interfaces, (implementsTo H t fuel i = true ↔ Implements H i t) := fun i hi =>
      implementsTo_iff (Nat.lt_of_lt_of_le (H.rank_interface hi) hle)
    simp only [implementsTo, Bool.or_eq_true, List.any_eq_true, beq_iff_eq]
    constructor
    · rintro (⟨i, him, rfl | himp⟩ | hsuper)
      · exact .direct him
      · exact .interface him ((hi i him).mp himp)
      · cases hs : (H.cls s).super with
        | none => simp [hs] at hsuper
        | some p =>
          rw [hs] at hsuper
          exact .super hs ((implementsTo_iff (Nat.lt_of_lt_of_le (H.rank_super hs) hle)).mp hsuper)
    · intro himp
      cases himp with
      | direct him => exact .inl ⟨t, him, .inl rfl⟩
      | interface him himp => exact .inl ⟨_, him, .inr ((hi _ him).mpr himp)⟩
      | super hs himp =>
        rw [show (H.cls s).super = _ from hs]
        exact .inr ((implementsTo_iff (Nat.lt_of_lt_of_le (H.rank_super hs) hle)).mpr himp)

theorem implements_iff : implements H t s = true ↔ Implements H s t := implementsTo_iff (Nat.lt_succ_self _)

theorem isAssignableTo_self {fuel : Nat} (hf : 0 < fuel) : isAssignableTo H t t fuel = true := by
  cases fuel with
  | zero => exact absurd hf (Nat.lt_irrefl 0)
  | succ fuel => simp [isAssignableTo]

/-- The answer for an interface, for an array class and for any other class. -/
theorem isAssignableFromNocache_iff (hne : s ≠ t) : isAssignableFromNocache H t s = true ↔
    ((H.cls t).isInterface = true ∧ Implements H s t) ∨ (∃ f e, (H.cls t).kind = .array f ∧ (H.cls s).kind = .array e) ∨
        (H.cls t).isInterface = false ∧ (∀ f, (H.cls t).kind ≠ .array f) ∧ Relation.TransGen (Extends H) s t := by
  rw [isAssignableFromNocache, isAssignableTo, if_neg (Ne.symm hne)]
  by_cases hi : (H.cls t).isInterface = true
  · have hk := (H.interface_kind hi).1
    simp [hi, hk, implements_iff]
  · rw [if_neg hi]
    have hi' : (H.cls t).isInterface = false := by simpa using hi
    cases hk : (H.cls t).kind with
    | regular | primitive => simp [hi', isSubclassOf_iff]
    | array f =>
      have hpos : 0 < H.rank t := Nat.lt_of_le_of_lt (Nat.zero_le _) (H.rank_element hk)
      cases hks : (H.cls s).kind with
      | regular => simp [hi']
      | primitive => simp [hi']
      | array e => simp [isAssignableTo_self hpos]

theorem isAssignableFromNocache_regular (hk : (H.cls s).kind = .regular) (hne : s ≠ t) :
    isAssignableFromNocache H t s = true ↔ IsSubtype H s t := by
  rw [isAssignableFromNocache_iff hne]
  constructor
  · rintro (⟨-, h⟩ | ⟨f, e, -, h⟩ | ⟨-, -, h⟩)
    · exact isSubtype_of_implements hk h
    · rw [hk] at h
      cases h
    · exact isSubtype_of_extends hk h.to_reflTransGen
  · intro h
    by_cases hi : (H.cls t).isInterface = true
    · exact .inl ⟨hi, h.implements hk hi hne⟩
    · have hi' : (H.cls t).isInterface = false := by simpa using hi
      refine .inr (.inr ⟨hi', fun f hf => ?_, ?_⟩)
      · rw [h.regular hk] at hf
        cases hf
      · rcases Relation.reflTransGen_iff_eq_or_transGen.mp (h.extends hk hi') with heq | h
        · exact absurd heq.symm hne
        · exact h

/-- A primitive class counts as a subclass of `Object`. -/
theorem isAssignableFromNocache_primitive (hk : (H.cls s).kind = .primitive) (hne : s ≠ t) :
    isAssignableFromNocache H t s = true ↔ t = H.object := by
  obtain ⟨hsuper, hint⟩ := H.primitive_class hk
  rw [isAssignableFromNocache_iff hne]
  constructor
  · rintro (⟨-, h⟩ | ⟨f, e, -, h⟩ | ⟨-, -, h⟩)
    · cases h with
      | direct hi | interface hi => simp [hint] at hi
      | super hp h =>
        rw [Extends, hsuper] at hp
        cases hp
        exact absurd h not_implements_object
    · rw [hk] at h
      cases h
    · exact (transGen_object_iff hsuper).mp h
  · rintro rfl
    exact .inr (.inr ⟨by rw [H.object_root], by simp [kind_object], (transGen_object_iff hsuper).mpr rfl⟩)

section

variable {e : C} (hk : (H.cls s).kind = .array e)

include hk

/-- `Serializable` is forgotten. -/
theorem isAssignableFromNocache_interface
    (ht : (H.cls t).isInterface = true) : isAssignableFromNocache H t s = true ↔ IsSubtype H H.cloneable t := by
  rw [isAssignableFromNocache_iff (ne_of_isInterface (by simp [hk]) ht), ← implements_array_iff hk ht]
  constructor
  · rintro (⟨-, h⟩ | ⟨f, -, hf, -⟩ | ⟨hi, -⟩)
    · exact h
    · rw [(H.interface_kind ht).1] at hf
      cases hf
    · rw [ht] at hi
      cases hi
  · exact fun h => .inl ⟨ht, h⟩

/-- Any two arrays count as assignable. -/
theorem isAssignableFromNocache_class (ht : (H.cls t).isInterface = false)
    (hne : s ≠ t) : isAssignableFromNocache H t s = true ↔ t = H.object ∨ ∃ f, (H.cls t).kind = .array f := by
  rw [isAssignableFromNocache_iff hne]
  constructor
  · rintro (⟨hi, -⟩ | ⟨f, -, hf, -⟩ | ⟨-, -, h⟩)
    · rw [ht] at hi
      cases hi
    · exact .inr ⟨f, hf⟩
    · exact .inl ((transGen_object_iff (H.array_class hk).1).mp h)
  · rintro (rfl | ⟨f, hf⟩)
    · exact .inr (.inr ⟨ht, by simp [kind_object], (transGen_object_iff (H.array_class hk).1).mpr rfl⟩)
    · exact .inr (.inl ⟨f, e, hf, hk⟩)

theorem isAssignableFromNocache_array (hne : s ≠ t) :
    (isAssignableFromNocache H t s = true ↔ IsSubtype H s t) ↔ WellAnswered H t s := by
  have hprim : (H.cls s).kind = .primitive → t ≠ H.object := by
    rw [hk]
    simp
  by_cases ht : (H.cls t).isInterface = true
  · rw [isAssignableFromNocache_interface hk ht, isSubtype_array_interface hk ht]
    constructor
    · intro h
      refine ⟨fun _ f _ hf => ?_, fun _ z _ _ hz hzt => h.mpr (.inr ⟨z, hz, hzt⟩), hprim⟩
      rw [(H.interface_kind ht).1] at hf
      cases hf
    · intro h
      refine ⟨.inl, ?_⟩
      rintro (hc | ⟨z, hz, hzt⟩)
      · exact hc
      · exact h.serializable e z hk ht hz hzt
  · have ht' : (H.cls t).isInterface = false := by simpa using ht
    rw [isAssignableFromNocache_class hk ht' hne, isSubtype_array_class hk ht' hne]
    constructor
    · intro h
      refine ⟨fun e' f he hf => ?_, fun _ _ _ hi => absurd hi ht, hprim⟩
      rw [hk] at he
      cases he
      rcases h.mp (.inr ⟨f, hf⟩) with rfl | ⟨f', hf', h⟩
      · rw [kind_object] at hf
        cases hf
      · rw [hf] at hf'
        cases hf'
        exact h
    · intro h
      refine ⟨?_, ?_⟩
      · rintro (ho | ⟨f, hf⟩)
        · exact .inl ho
        · exact .inr ⟨f, hf, h.arrays e f hk hf⟩
      · rintro (ho | ⟨f, hf, -⟩)
        · exact .inl ho
        · exact .inr ⟨f, hf⟩

end

theorem isAssignableFromNocache_correct_iff :
    (isAssignableFromNocache H t s = true ↔ IsSubtype H s t) ↔ WellAnswered H t s := by
  by_cases hne : s = t
  · subst hne
    have hself : isAssignableFromNocache H s s = true := isAssignableTo_self (Nat.succ_pos _)
    exact ⟨fun _ => wellAnswered_self, fun _ => iff_of_true hself (.refl s)⟩
  · cases hk : (H.cls s).kind with
    | regular => exact iff_of_true (isAssignableFromNocache_regular hk hne) (wellAnswered_of_regular hk)
    | array e => exact isAssignableFromNocache_array hk hne
    | primitive =>
      have hno : ¬ IsSubtype H s t := fun h => hne (h.primitive_eq hk)
      rw [isAssignableFromNocache_primitive hk hne]
      constructor
      · intro h
        refine ⟨fun e f he => ?_, fun e z he => ?_, fun _ ho => hno (h.mp ho)⟩
        · rw [hk] at he
          cases he
        · rw [hk] at he
          cases he
      · exact fun h => iff_of_false (h.primitive hk) hno

/-! ## The cache -/

/-- Every class in a cache is assignable to the class of the cache. -/
def CachesSound (H : Hierarchy C) (caches : Caches C) : Prop :=
  ∀ t s, (caches t).test s = true → isAssignableFromNocache H t s = true

theorem isAssignableFrom_eq {caches : Caches C} (h : CachesSound H caches) :
    (isAssignableFrom H caches t s).1 = isAssignableFromNocache H t s := by
  rw [isAssignableFrom]
  split
  · rename_i htest
    exact (h t s htest).symm
  · rfl

theorem test_update {cache : SupertypeCache C} {a b : C} (h : (cache.update a).test b = true) :
    b = a ∨ cache.test b = true := by
  simp only [SupertypeCache.update, SupertypeCache.test, Bool.or_eq_true, beq_iff_eq] at h ⊢
  split at h <;> simp_all <;> grind

theorem CachesSound.query {caches : Caches C} (h : CachesSound H caches) (q : C × C) :
    CachesSound H (isAssignableFrom H caches q.1 q.2).2 := by
  rw [isAssignableFrom]
  split
  · exact h
  · intro c d htest
    rw [isAssignableFromSlow] at htest
    by_cases hret : isAssignableFromNocache H q.1 q.2 = true
    · simp only [hret, if_true] at htest
      by_cases hc : c = q.1
      · rw [if_pos hc] at htest
        rcases test_update htest with rfl | htest
        · exact hc ▸ hret
        · exact hc ▸ h q.1 d htest
      · rw [if_neg hc] at htest
        exact h c d htest
    · simp only [hret] at htest
      exact h c d htest

theorem cachesSound_afterQueries (queries : List (C × C)) : CachesSound H (afterQueries H queries) := by
  suffices h : ∀ caches, CachesSound H caches →
      CachesSound H (queries.foldl (fun caches q => (isAssignableFrom H caches q.1 q.2).2) caches) from
    h _ fun _ _ htest => by simp [emptyCaches, SupertypeCache.test] at htest
  induction queries with
  | nil => exact fun _ h => h
  | cons q queries ih => exact fun caches h => ih _ (h.query q)

/-- **Where assignability is right.** In a well-formed hierarchy (acyclic, rooted at `Object`, with classes under classes
and interfaces where interfaces are named) and after any queries, the answer for `t` and `s` is that of the subtype relation
unless `s` and `t` are arrays whose elements are not subtypes, `s` is an array and `t` is `Serializable`, or `s` is
primitive and `t` is `Object`. -/
theorem isAssignableFrom_correct_iff (H : Hierarchy C) (queries : List (C × C)) (t s : C) :
    ((isAssignableFrom H (afterQueries H queries) t s).1 = true ↔ IsSubtype H s t) ↔ WellAnswered H t s := by
  rw [isAssignableFrom_eq (cachesSound_afterQueries queries)]
  exact isAssignableFromNocache_correct_iff

/-! ## Two arrays of different primitive types -/

/-- The classes of the example. -/
inductive ArrayClass
  | object | cloneable | int | long | intArray | longArray
deriving DecidableEq

def arrayClassInfo : ArrayClass → VmClass ArrayClass
  | .object => ⟨.regular, false, none, []⟩
  | .cloneable => ⟨.regular, true, some .object, []⟩
  | .int | .long => ⟨.primitive, false, some .object, []⟩
  | .intArray => ⟨.array .int, false, some .object, [.cloneable]⟩
  | .longArray => ⟨.array .long, false, some .object, [.cloneable]⟩

def arrayHierarchy : Hierarchy ArrayClass where
  cls := arrayClassInfo
  object := .object
  cloneable := .cloneable
  serializable := none
  rank
    | .object => 0
    | .cloneable | .int | .long => 1
    | .intArray | .longArray => 2
  rank_super {c s} := by cases c <;> cases s <;> simp [arrayClassInfo]
  rank_interface {c i} := by cases c <;> cases i <;> simp [arrayClassInfo]
  rank_element {c e} := by cases c <;> cases e <;> simp [arrayClassInfo]
  object_root := rfl
  regular_super {c} := by cases c <;> simp [arrayClassInfo]
  interface_kind {c} := by cases c <;> simp [arrayClassInfo]
  interfaces_are {c i} := by cases c <;> cases i <;> simp [arrayClassInfo]
  array_class {c e} := by cases c <;> cases e <;> simp [arrayClassInfo]
  primitive_class {c} := by cases c <;> simp [arrayClassInfo]
  serializable_interface := nofun

/-- An array of longs is assignable to an array of ints, and an int to `Object`. -/
theorem isAssignableFrom_arrays : ((isAssignableFrom arrayHierarchy emptyCaches .intArray .longArray).1 = true ∧
      ¬ IsSubtype arrayHierarchy .longArray .intArray) ∧
    (isAssignableFrom arrayHierarchy emptyCaches .object .int).1 = true ∧ ¬ IsSubtype arrayHierarchy .int .object := by
  refine ⟨⟨rfl, fun h => ?_⟩, rfl, fun h => nomatch h.primitive_eq rfl⟩
  rcases (isSubtype_array_class rfl rfl (by decide)).mp h with h | ⟨f, hf, h⟩
  · cases h
  · cases hf
    exact nomatch h.primitive_eq rfl

end Answers

end Jato.Vm
