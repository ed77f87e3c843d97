import Jato.Arch.ArgsMap

/-!
# The argument list of an invocation

`convert_and_add_args` of `jit/invoke-bc.c` with `jit/args.c`. The operands of an invocation are popped into an array with
one entry for each slot, the last argument first; a long or double leaves its second entry unset. The list of arguments is
built in the order of the array, and each argument takes the register of the `args_map` entry for its first slot, counted
from the end. `convertAndAddArgs_eq` says that this is the entry of its own parameter, behind the hidden arguments of the
machine function, and that the arguments come in the order in which they are pushed: the last one first.
-/

namespace Jato.Jit.Args

open Jato.Arch List

/-! ## Expressions -/

/-- What the conversion needs to know of expressions, in a parse context of type `σ`. -/
structure Exprs (E σ : Type) where
  vmType : E → VmType
  isPure : E → Bool
  /-- A temporary with the value of the expression. -/
  dupExpr : E → σ → E × σ
  /-- The class of a method, as `value_expr` of its object. -/
  classObject : E
  vmType_dupExpr : ∀ e s, vmType (dupExpr e s).1 = vmType e
  vmType_classObject : vmType classObject = .reference

/-- A list of arguments, with their registers. -/
inductive ArgsList (E : Type)
  | noArgs
  | arg (this : Bool) (expr : E) (argReg : Option MachReg)
  | argsList (left right : ArgsList E)

/-- An argument of a list. -/
structure Arg (E : Type) where
  this : Bool
  expr : E
  argReg : Option MachReg

/-- The arguments in the order in which instructions are selected for them. -/
def ArgsList.toList {E : Type} : ArgsList E → List (Arg E)
  | noArgs => []
  | arg this expr argReg => [⟨this, expr, argReg⟩]
  | argsList left right => left.toList ++ right.toList

/-! ## The conversion -/

section Convert

variable {E σ : Type} (x : Exprs E σ) (config : Config) (m : Method)

def isPair (expr : E) : Bool := vmTypeIsPair (x.vmType expr)

/-- The index of the last slot of an operand with its first slot at `i`: a pair moves the index on. -/
def lastSlot (expr : E) (i : Nat) : Nat := if isPair x expr then i + 1 else i

theorem le_lastSlot (expr : E) (i : Nat) : i ≤ lastSlot x expr i := by
  unfold lastSlot
  split_ifs <;> omega

def isThisArg (index : Nat) : Bool :=
  if m.isStatic then false
  else if m.isJni then index = 1
  else index = 0

/-- `set_expr_arg_reg`: without `CONFIG_ARGS_MAP` the register is left alone. -/
def exprArgReg (index : Nat) : Option (Option MachReg) :=
  match config with
  | .x86_64 => ((argsMapInit m).1[index]?).map (·.reg)
  | .x86_32 => some none

def insertArg (root : Option (ArgsList E)) (expr : E) (index : Nat) : Option (ArgsList E) := do
  let argReg ← exprArgReg config m index
  let arg := ArgsList.arg (isThisArg m index) expr argReg
  match root with
  | none => return arg
  | some root => return .argsList root arg

/-- `pop_args` from the entry `i` on; `none` when the stack is empty. -/
def popArgs (nrArgs i : Nat) (argsArray : List (Option E)) (mimicStack : List E) :
    Option (List (Option E) × List E) :=
  if i < nrArgs then
    match mimicStack with
    | [] => none
    | expr :: mimicStack =>
      let argsArray := argsArray.set i (some expr)
      let next := lastSlot x expr i
      if nrArgs ≤ next then some (argsArray, mimicStack) else popArgs nrArgs (next + 1) argsArray mimicStack
  else some (argsArray, mimicStack)
termination_by nrArgs - i
decreasing_by
  have := le_lastSlot x expr i
  omega

def getPureExpr (expr : E) (s : σ) : E × σ := if x.isPure expr then (expr, s) else x.dupExpr expr s

/-- The loop that makes the arguments pure; `none` when it reads an entry that is not set. -/
def purifyArgs (nrArgs i : Nat) (argsArray : List (Option E)) (s : σ) : Option (List (Option E) × σ) :=
  if i < nrArgs then
    match argsArray[i]?.join with
    | none => none
    | some expr =>
      let (pure, s) := getPureExpr x expr s
      let argsArray := argsArray.set i (some pure)
      let next := lastSlot x expr i
      if nrArgs ≤ next then some (argsArray, s) else purifyArgs nrArgs (next + 1) argsArray s
  else some (argsArray, s)
termination_by nrArgs - i
decreasing_by
  have := le_lastSlot x expr i
  omega

def vmMethodArgType : VmType → VmType
  | .boolean | .short | .byte | .char => .int
  | t => t

/-- `verify_arg_types`, over the parameters from the last one on. -/
def verifyArgTypes (argsArray : List (Option E)) (nrArgs : Nat) : List VmType → Nat → Option Bool
  | [], _ => some true
  | arg :: args, idx =>
    match argsArray[idx]?.join with
    | none => none
    | some expr =>
      if x.vmType expr ≠ vmMethodArgType arg then some false
      else
        let next := lastSlot x expr idx
        if nrArgs ≤ next then some true else verifyArgTypes argsArray nrArgs args (next + 1)

/-- The first loop of `convert_args`. -/
def convertLoop (argsArray : List (Option E)) (nrArgs nrTotalArgs i : Nat) (argsList : Option (ArgsList E)) :
    Option (Option (ArgsList E)) :=
  if i < nrArgs then
    match argsArray[i]?.join with
    | none => none
    | some expr =>
      let next := lastSlot x expr i
      if nrArgs ≤ next then some argsList
      else
        match insertArg config m argsList expr (nrTotalArgs - next - 1) with
        | none => none
        | some argsList => convertLoop argsArray nrArgs nrTotalArgs (next + 1) (some argsList)
  else some argsList
termination_by nrArgs - i
decreasing_by
  have := le_lastSlot x expr i
  omega

def nrTotalArgs (nrArgs : Nat) : Nat := nrArgs + (if m.isJni then (if m.isStatic then 1 else 0) + 1 else 0)

def convertArgs (argsArray : List (Option E)) (nrArgs : Nat) : Option (ArgsList E) := do
  if nrTotalArgs m nrArgs = 0 then return .noArgs
  let argsList ← convertLoop x config m argsArray nrArgs (nrTotalArgs m nrArgs) 0 none
  if m.isJni && m.isStatic then insertArg config m argsList x.classObject 1
  else argsList

/-- `vm_method_arg_slots`. -/
def vmMethodArgSlots : List VmType → Nat
  | [] => 0
  | arg :: args => 1 + (if vmTypeIsPair arg then 1 else 0) + vmMethodArgSlots args

def vmMethodArgStackCount : Nat := vmMethodArgSlots m.args + if m.isStatic then 0 else 1

/-- The outcome of `convert_and_add_args`. -/
inductive Outcome (E σ : Type)
  | added (argsList : ArgsList E) (mimicStack : List E) (s : σ)
  | verifyError

/-- The result is `none` where memory outside of an array, or not set, is read, or the stack is too short. -/
def convertAndAddArgs (mimicStack : List E) (s : σ) : Option (Outcome E σ) := do
  let nrArgs := vmMethodArgStackCount m
  let (argsArray, mimicStack) ← popArgs x nrArgs 0 (List.replicate nrArgs none) mimicStack
  let (argsArray, s) ← purifyArgs x nrArgs 0 argsArray s
  let verified ← verifyArgTypes x argsArray nrArgs m.args.reverse 0
  if verified then
    let argsList ← convertArgs x config m argsArray nrArgs
    return .added argsList mimicStack s
  else return .verifyError

end Convert

/-! ## The array -/

variable {nrArgs : Nat}

section Array

variable {E σ : Type} (x : Exprs E σ)

/-- The entries for an operand. -/
def slotsOf (expr : E) : List (Option E) := if isPair x expr then [some expr, none] else [some expr]

/-- The array for operands, the topmost first. -/
def slots (operands : List E) : List (Option E) := operands.flatMap (slotsOf x)

variable {x} {done : List (Option E)} {expr : E} {operands : List E}

theorem slots_cons : slots x (expr :: operands) = slotsOf x expr ++ slots x operands := flatMap_cons

theorem lastSlot_succ (i : Nat) : lastSlot x expr i + 1 = i + (slotsOf x expr).length := by
  unfold lastSlot slotsOf
  split_ifs <;> rfl

theorem getElem?_slots : (done ++ slots x (expr :: operands))[done.length]?.join = some expr := by
  rw [slots_cons, getElem?_append_right (le_refl _), Nat.sub_self]
  unfold slotsOf
  split_ifs <;> rfl

theorem set_slots {expr' : E} (htype : x.vmType expr' = x.vmType expr) :
    (done ++ slots x (expr :: operands)).set done.length (some expr') = done ++ slotsOf x expr' ++ slots x operands := by
  have hpair : isPair x expr' = isPair x expr := by rw [isPair, htype, isPair]
  rw [slots_cons, set_append_right _ _ (le_refl _), Nat.sub_self, append_assoc]
  unfold slotsOf
  rw [hpair]
  split_ifs <;> rfl

variable {n index k : Nat} {ts : List VmType}

theorem set_replicate : (done ++ List.replicate ((slotsOf x expr).length + n) none).set done.length (some expr) =
    done ++ slotsOf x expr ++ List.replicate n none := by
  rw [set_append_right _ _ (le_refl _), Nat.sub_self, append_assoc, replicate_add]
  unfold slotsOf
  split_ifs <;> rfl

theorem lastSlot_lt (h : nrArgs = done.length + (slots x (expr :: operands)).length) :
    done.length < nrArgs ∧ ¬nrArgs ≤ lastSlot x expr done.length ∧
      nrArgs = (done ++ slotsOf x expr).length + (slots x operands).length ∧
      lastSlot x expr done.length + 1 = (done ++ slotsOf x expr).length := by
  have hlast : lastSlot x expr done.length + 1 = done.length + (slotsOf x expr).length := lastSlot_succ _
  have hle := le_lastSlot x expr done.length
  rw [slots_cons, length_append] at h
  rw [length_append]
  omega

/-- **The operands are popped** into their entries. -/
theorem popArgs_eq (operands rest : List E) (done : List (Option E))
    (h : nrArgs = done.length + (slots x operands).length) :
    popArgs x nrArgs done.length (done ++ List.replicate (slots x operands).length none) (operands ++ rest) =
      some (done ++ slots x operands, rest) := by
  induction operands generalizing done with
  | nil =>
    have hend : ¬done.length < nrArgs := by
      rw [h]
      exact lt_irrefl _
    rw [popArgs.eq_def, if_neg hend]
    rfl
  | cons expr operands ih =>
    obtain ⟨hlt, hmore, hnext, hlast⟩ := lastSlot_lt h
    rw [popArgs.eq_def, if_pos hlt, cons_append, slots_cons, length_append]
    simp only [set_replicate, if_neg hmore, hlast]
    rw [ih (done ++ slotsOf x expr) hnext, append_assoc]

/-- The operands after they have been made pure. -/
def purify (x : Exprs E σ) : List E → σ → List E × σ
  | [], s => ([], s)
  | expr :: operands, s =>
    let (pure, s) := getPureExpr x expr s
    let (pures, s) := purify x operands s
    (pure :: pures, s)

theorem vmType_getPureExpr (expr : E) (s : σ) : x.vmType (getPureExpr x expr s).1 = x.vmType expr := by
  unfold getPureExpr
  split_ifs
  · rfl
  · exact x.vmType_dupExpr expr s

theorem vmType_purify (operands : List E) (s : σ) : (purify x operands s).1.map x.vmType = operands.map x.vmType := by
  induction operands generalizing s with
  | nil => rfl
  | cons expr operands ih => exact congrArg₂ List.cons (vmType_getPureExpr expr s) (ih _)

theorem purifyArgs_eq (operands : List E) (done : List (Option E)) (s : σ)
    (h : nrArgs = done.length + (slots x operands).length) :
    purifyArgs x nrArgs done.length (done ++ slots x operands) s =
      some (done ++ slots x (purify x operands s).1, (purify x operands s).2) := by
  induction operands generalizing done s with
  | nil =>
    have hend : ¬done.length < nrArgs := by
      rw [h]
      exact lt_irrefl _
    rw [purifyArgs.eq_def, if_neg hend]
    rfl
  | cons expr operands ih =>
    obtain ⟨hlt, hmore, hnext, hlast⟩ := lastSlot_lt h
    have htype := vmType_getPureExpr (x := x) expr s
    have hlen : (slotsOf x (getPureExpr x expr s).1).length = (slotsOf x expr).length := by
      rw [slotsOf, slotsOf, isPair, isPair, htype]
      split_ifs <;> rfl
    rw [length_append, ← hlen, ← length_append] at hnext hlast
    rw [purifyArgs.eq_def, if_pos hlt, getElem?_slots]
    simp only [set_slots htype, if_neg hmore, hlast]
    rw [ih _ _ hnext, append_assoc, ← slots_cons]
    rfl

/-- Operands of the declared types are verified, with any others below them. -/
theorem verifyArgTypes_eq (operands others : List E) (done : List (Option E)) {args : List VmType}
    (h : nrArgs = done.length + (slots x (operands ++ others)).length)
    (htypes : operands.map x.vmType = args.map vmMethodArgType) :
    verifyArgTypes x (done ++ slots x (operands ++ others)) nrArgs args done.length = some true := by
  induction operands generalizing done args with
  | nil =>
    cases args with
    | nil => rfl
    | cons arg args => cases htypes
  | cons expr operands ih =>
    cases args with
    | nil => cases htypes
    | cons arg args =>
      obtain ⟨htype, htypes⟩ := cons_eq_cons.mp htypes
      obtain ⟨hlt, hmore, hnext, hlast⟩ := lastSlot_lt h
      rw [verifyArgTypes, cons_append, getElem?_slots]
      simp only [htype, ne_eq, not_true_eq_false, if_false, if_neg hmore, hlast]
      rw [slots_cons, ← append_assoc]
      exact ih _ hnext htypes

/-! ## The list -/

variable {config : Config} {m : Method}

/-- The arguments that have been inserted. -/
def rootArgs : Option (ArgsList E) → List (Arg E)
  | none => []
  | some argsList => argsList.toList

/-- An argument for the slot `index`. -/
def argAt (config : Config) (m : Method) (index : Nat) (expr : E) : Arg E :=
  ⟨isThisArg m index, expr, (exprArgReg config m index).getD none⟩

theorem insertArg_eq (h : (exprArgReg config m index).isSome) (root : Option (ArgsList E)) (expr : E) :
    ∃ argsList, insertArg config m root expr index = some argsList ∧
      argsList.toList = rootArgs root ++ [argAt config m index expr] := by
  obtain ⟨reg, hreg⟩ := Option.isSome_iff_exists.mp h
  have hat : argAt config m index expr = ⟨isThisArg m index, expr, reg⟩ := by rw [argAt, hreg, Option.getD_some]
  rw [hat, insertArg, hreg]
  cases root with
  | none | some root => exact ⟨_, rfl, rfl⟩

/-- The operands, the topmost first, with the slots before `n` that they begin at. -/
def downFrom (x : Exprs E σ) : Nat → List E → List (Nat × E)
  | _, [] => []
  | n, expr :: operands => (n - (slotsOf x expr).length, expr) :: downFrom x (n - (slotsOf x expr).length) operands

theorem convertLoop_eq {nrTotal : Nat} (hregs : ∀ index < nrTotal, (exprArgReg config m index).isSome)
    (operands : List E) (done : List (Option E)) (root : Option (ArgsList E))
    (h : nrArgs = done.length + (slots x operands).length) (htotal : nrArgs ≤ nrTotal) :
    ∃ argsList, convertLoop x config m (done ++ slots x operands) nrArgs nrTotal done.length root = some argsList ∧
      rootArgs argsList = rootArgs root ++
        (downFrom x (nrTotal - done.length) operands).map fun (index, expr) => argAt config m index expr := by
  induction operands generalizing done root with
  | nil =>
    have hend : ¬done.length < nrArgs := by
      rw [h]
      exact lt_irrefl _
    rw [convertLoop.eq_def, if_neg hend]
    exact ⟨root, rfl, (append_nil _).symm⟩
  | cons expr operands ih =>
    obtain ⟨hlt, hmore, hnext, hlast⟩ := lastSlot_lt h
    have hindex : nrTotal - lastSlot x expr done.length - 1 = nrTotal - done.length - (slotsOf x expr).length := by
      rw [length_append] at hlast
      omega
    obtain ⟨argsList, hinsert, hlist⟩ := insertArg_eq (hregs (nrTotal - lastSlot x expr done.length - 1) (by omega)) root expr
    obtain ⟨result, hresult, hargs⟩ := ih (done ++ slotsOf x expr) (some argsList) hnext
    refine ⟨result, ?_, ?_⟩
    · rw [convertLoop.eq_def, if_pos hlt, getElem?_slots]
      simp only [if_neg hmore, hinsert, hlast]
      rw [slots_cons, ← append_assoc]
      exact hresult
    · rw [hargs, rootArgs, hlist, append_assoc, hindex, length_append, Nat.sub_add_eq]
      rfl

/-! ## First slots -/

/-- Expressions in the order of their slots from `k` on. -/
def upFrom (x : Exprs E σ) : Nat → List E → List (Nat × E)
  | _, [] => []
  | k, expr :: exprs => (k, expr) :: upFrom x (k + (slotsOf x expr).length) exprs

variable (es : List E) (c : Counts)

theorem length_slots_append (fs : List E) : (slots x (es ++ fs)).length = (slots x es).length + (slots x fs).length := by
  rw [slots, flatMap_append, length_append]
  rfl

theorem length_slots_reverse : (slots x es.reverse).length = (slots x es).length := by
  induction es with
  | nil => rfl
  | cons expr es ih =>
    rw [reverse_cons, length_slots_append, ih, slots_cons, length_append, add_comm]
    simp [slots]

theorem upFrom_append_singleton (k : Nat) :
    upFrom x k (es ++ [expr]) = upFrom x k es ++ [(k + (slots x es).length, expr)] := by
  induction es generalizing k with
  | nil => rfl
  | cons e es ih => rw [cons_append, upFrom, upFrom, ih, slots_cons, length_append, add_assoc, cons_append]

theorem reverse_downFrom (operands : List E) (h : (slots x operands).length ≤ n) :
    (downFrom x n operands).reverse = upFrom x (n - (slots x operands).length) operands.reverse := by
  induction operands generalizing n with
  | nil => rfl
  | cons expr operands ih =>
    rw [slots_cons, length_append] at h ⊢
    rw [downFrom, reverse_cons, reverse_cons, upFrom_append_singleton, ih (by omega), length_slots_reverse,
      Nat.sub_add_eq, Nat.sub_add_cancel (by omega)]

theorem length_slotsOf : (slotsOf x expr).length = if isPair x expr then 2 else 1 := by
  unfold slotsOf
  split_ifs <;> rfl

theorem getElem?_upFrom {α : Type} {as : List α}
    (hpairs : es.map (isPair x) = ts.map vmTypeIsPair) (hlen : k + (slots x es).length ≤ as.length) :
    (upFrom x k es).map (fun p => as[p.1]?) = (firstSlots ts (as.drop k)).map some := by
  induction es generalizing ts k with
  | nil =>
    cases ts with
    | nil => rfl
    | cons t ts => cases hpairs
  | cons expr es ih =>
    cases ts with
    | nil => cases hpairs
    | cons t ts =>
      obtain ⟨hpair, hpairs⟩ := cons_eq_cons.mp hpairs
      rw [slots_cons, length_append, length_slotsOf] at hlen
      have hlt : k < as.length := by split_ifs at hlen <;> omega
      have hrest : (if vmTypeIsPair t then (as.drop (k + 1)).drop 1 else as.drop (k + 1)) =
          as.drop (k + (slotsOf x expr).length) := by
        rw [length_slotsOf, hpair]
        split_ifs
        · rw [drop_drop]
        · rfl
      rw [upFrom, map_cons, drop_eq_getElem_cons hlt, firstSlots, map_cons, hrest,
        ih hpairs (by rw [length_slotsOf]; omega), getElem?_eq_getElem hlt]

theorem map_snd_upFrom (k : Nat) : (upFrom x k es).map (·.2) = es := by
  induction es generalizing k with
  | nil => rfl
  | cons expr es ih => rw [upFrom, map_cons, ih]

/-! ## The map of the method -/

theorem length_argsMapLoop (ts : List VmType) : (argsMapLoop ts c).1.length = vmMethodArgSlots ts := by
  induction ts generalizing c with
  | nil => rfl
  | cons t ts ih =>
    rw [argsMapLoop_cons, vmMethodArgSlots, length_cons, length_append, ih]
    split_ifs
    · rw [length_singleton]
      omega
    · rw [length_nil]
      omega

theorem length_argsMapHidden (ts : List VmType) : (argsMapHidden ts c).1.length = ts.length := by
  induction ts generalizing c with
  | nil => rfl
  | cons t ts ih => exact congrArg (· + 1) (ih _)

theorem length_argsMapInit (m : Method) : (argsMapInit m).1.length = nrTotalArgs m (vmMethodArgStackCount m) := by
  have hlen : (argsMapInit m).1.length = m.hiddenArgs.length + vmMethodArgSlots m.args := by
    unfold argsMapInit
    rw [length_append, length_argsMapHidden, length_argsMapLoop]
  rw [hlen, nrTotalArgs, vmMethodArgStackCount, Method.hiddenArgs]
  cases m.isJni <;> cases m.isStatic <;> simp <;> omega

theorem exprArgReg_isSome (h : index < nrTotalArgs m (vmMethodArgStackCount m)) :
    (exprArgReg config m index).isSome := by
  cases config with
  | x86_32 => rfl
  | x86_64 =>
    have hlt : index < (argsMapInit m).1.length := by rwa [length_argsMapInit]
    rw [exprArgReg, getElem?_eq_getElem hlt]
    rfl

/-! ## The result -/

/-- The types of the operands of an invocation: the receiver and the parameters. -/
def operandTypes (m : Method) : List VmType := (if m.isStatic then [] else [.reference]) ++ m.args.map vmMethodArgType

/-- What the caller of the machine function passes: the environment of a JNI method is added by the trampoline. -/
def passedFrom (m : Method) : Nat := if m.isJni then 1 else 0

/-- The expressions that are passed for the pure operands, in the order of the parameters. -/
def passed (x : Exprs E σ) (m : Method) (operands : List E) : List E :=
  (if m.isJni && m.isStatic then [x.classObject] else []) ++ operands.reverse

/-- The arguments are the operands, each with the register of its own parameter, and the last parameter comes first. -/
structure ArgsListCorrect (x : Exprs E σ) (config : Config) (m : Method) (operands : List E) (argsList : ArgsList E) :
    Prop where
  exprs : argsList.toList.reverse.map (·.expr) = passed x m operands
  regs : config = .x86_64 → argsList.toList.reverse.map (·.argReg) = (m.entries.drop (passedFrom m)).map (·.reg)
  receiver : argsList.toList.reverse.map (·.this) =
    (List.range (passed x m operands).length).map fun i => !m.isStatic && i = 0

theorem vmTypeIsPair_vmMethodArgType (t : VmType) : vmTypeIsPair (vmMethodArgType t) = vmTypeIsPair t := by
  cases t <;> rfl

theorem length_slots_eq (h : operands.map x.vmType = ts.map vmMethodArgType) :
    (slots x operands).length = vmMethodArgSlots ts := by
  induction operands generalizing ts with
  | nil =>
    cases ts with
    | nil => rfl
    | cons t ts => cases h
  | cons expr operands ih =>
    cases ts with
    | nil => cases h
    | cons t ts =>
      obtain ⟨htype, htypes⟩ := cons_eq_cons.mp h
      rw [slots_cons, length_append, ih htypes, length_slotsOf, isPair, htype, vmTypeIsPair_vmMethodArgType,
        vmMethodArgSlots]
      split_ifs <;> rfl

/-- The expressions have the slots of the arguments they are passed for. -/
theorem isPair_passed (htypes : operands.map x.vmType = (operandTypes m).reverse) :
    (passed x m operands).map (isPair x) = (m.allArgs.drop (passedFrom m)).map vmTypeIsPair := by
  have hoperands : operands.reverse.map (isPair x) = (operandTypes m).map vmTypeIsPair := by
    have h := congrArg (List.map vmTypeIsPair) (congrArg List.reverse htypes)
    rw [reverse_reverse, ← map_reverse, map_map] at h
    exact h
  have hargs : (m.args.map vmMethodArgType).map vmTypeIsPair = m.args.map vmTypeIsPair := by
    rw [map_map]
    exact map_congr_left fun t _ => vmTypeIsPair_vmMethodArgType t
  have hclass : isPair x x.classObject = false := by
    rw [isPair, x.vmType_classObject]
    rfl
  rw [passed, map_append, hoperands, operandTypes, map_append, hargs, Method.allArgs, Method.hiddenArgs, passedFrom]
  cases m.isJni <;> cases m.isStatic <;> simp [hclass, vmTypeIsPair]

theorem length_slots_operands (htypes : operands.map x.vmType = (operandTypes m).reverse) :
    (slots x operands).length = vmMethodArgStackCount m := by
  have h : operands.reverse.map x.vmType = operandTypes m := by
    rw [map_reverse, htypes, reverse_reverse]
  rw [← length_slots_reverse]
  unfold operandTypes at h
  rw [vmMethodArgStackCount]
  cases hstatic : m.isStatic with
  | true =>
    rw [hstatic] at h
    exact length_slots_eq h
  | false =>
    rw [hstatic] at h
    have htypes : operands.reverse.map x.vmType = (VmType.reference :: m.args).map vmMethodArgType := h
    exact (length_slots_eq htypes).trans (add_comm _ _)

theorem le_fst_upFrom {es : List E} {p : Nat × E} (h : p ∈ upFrom x k es) : k ≤ p.1 := by
  induction es generalizing k with
  | nil => cases h
  | cons expr es ih =>
    rcases mem_cons.mp h with rfl | h
    · exact le_refl _
    · exact le_trans (Nat.le_add_right _ _) (ih h)

theorem map_fst_eq_upFrom (k : Nat) :
    (upFrom x k es).map (fun p => decide (p.1 = k)) = (List.range es.length).map fun i => decide (i = 0) := by
  cases es with
  | nil => rfl
  | cons expr es =>
    have hpos : 0 < (slotsOf x expr).length := by
      rw [length_slotsOf]
      split_ifs <;> decide
    have hlen : (upFrom x (k + (slotsOf x expr).length) es).length = es.length := by
      rw [← length_map (·.2), map_snd_upFrom]
    rw [upFrom, map_cons, length_cons, range_succ_eq_map, map_cons, map_map]
    refine congrArg₂ List.cons (decide_eq_decide.mpr (iff_of_true rfl rfl)) ?_
    have hrest : (upFrom x (k + (slotsOf x expr).length) es).map (fun p => decide (p.1 = k)) =
        List.replicate es.length false := by
      refine eq_replicate_iff.mpr ⟨by rw [length_map, hlen], fun b hb => ?_⟩
      obtain ⟨p, hp, rfl⟩ := mem_map.mp hb
      have hle := le_fst_upFrom hp
      exact decide_eq_false (by omega)
    rw [hrest]
    refine (eq_replicate_iff.mpr ⟨by rw [length_map, length_range], fun b hb => ?_⟩).symm
    obtain ⟨i, -, rfl⟩ := mem_map.mp hb
    rfl

theorem isThisArg_eq (m : Method) (index : Nat) : isThisArg m index = (!m.isStatic && decide (index = passedFrom m)) := by
  unfold isThisArg passedFrom
  cases m.isStatic <;> cases m.isJni <;> simp

theorem drop_entries (m : Method) : m.entries.drop (passedFrom m) =
    firstSlots (m.allArgs.drop (passedFrom m)) ((argsMapInit m).1.drop (passedFrom m)) := by
  unfold Method.entries passedFrom
  cases hjni : m.isJni with
  | false => rfl
  | true =>
    obtain ⟨entry, entries, hentries⟩ : ∃ entry entries, (argsMapInit m).1 = entry :: entries := by
      refine exists_cons_of_length_pos ?_
      rw [length_argsMapInit, nrTotalArgs, hjni, if_pos rfl]
      omega
    obtain ⟨ts, hargs⟩ : ∃ ts, m.allArgs = .reference :: ts := by
      rw [Method.allArgs, Method.hiddenArgs, hjni]
      cases m.isStatic <;> exact ⟨_, rfl⟩
    rw [if_pos rfl, hentries, hargs]
    rfl

/-- A list of the passed expressions in the order of their slots is correct. -/
theorem argsListCorrect_of_toList {argsList : ArgsList E} (hpairs : (passed x m operands).map (isPair x) =
      (m.allArgs.drop (passedFrom m)).map vmTypeIsPair)
    (hlen : passedFrom m + (slots x (passed x m operands)).length ≤ (argsMapInit m).1.length)
    (hlist : argsList.toList.reverse =
      (upFrom x (passedFrom m) (passed x m operands)).map fun p => argAt config m p.1 p.2) :
    ArgsListCorrect x config m operands argsList := by
  refine ⟨?_, ?_, ?_⟩
  · rw [hlist, map_map]
    exact map_snd_upFrom _ _
  · rintro rfl
    have hentries := getElem?_upFrom _ hpairs hlen
    rw [← drop_entries] at hentries
    have hregs := congrArg (List.map fun o : Option ArgsMap => (o.map (·.reg)).getD none) hentries
    rw [map_map, map_map] at hregs
    rw [hlist, map_map]
    exact hregs
  · have hthis := map_fst_eq_upFrom (x := x) (passed x m operands) (passedFrom m)
    have hmap := congrArg (List.map fun b => !m.isStatic && b) hthis
    rw [map_map, map_map] at hmap
    rw [hlist, map_map]
    refine Eq.trans (map_congr_left fun p _ => ?_) hmap
    exact isThisArg_eq m p.1

theorem slotsOf_classObject : (slotsOf x x.classObject).length = 1 := by
  rw [length_slotsOf, isPair, x.vmType_classObject]
  rfl

theorem upFrom_passed (m : Method) (operands : List E) (nrArgs : Nat) : upFrom x (passedFrom m) (passed x m operands) =
    (if m.isJni && m.isStatic then [(1, x.classObject)] else []) ++
      upFrom x (nrTotalArgs m nrArgs - nrArgs) operands.reverse := by
  have hhidden : nrTotalArgs m nrArgs - nrArgs = if m.isJni then (if m.isStatic then 1 else 0) + 1 else 0 :=
    Nat.add_sub_cancel_left _ _
  rw [hhidden, passed, passedFrom]
  cases m.isJni <;> cases m.isStatic <;> simp [upFrom, slotsOf_classObject]

theorem length_slots_passed (htypes : operands.map x.vmType = (operandTypes m).reverse) :
    passedFrom m + (slots x (passed x m operands)).length = (argsMapInit m).1.length := by
  rw [length_argsMapInit, passed, length_slots_append, length_slots_reverse, length_slots_operands htypes, nrTotalArgs,
    passedFrom]
  cases m.isJni <;> cases m.isStatic <;> simp [slots, slotsOf_classObject] <;> omega

theorem eq_nil_of_length_slots (h : (slots x operands).length = 0) : operands = [] := by
  cases operands with
  | nil => rfl
  | cons expr operands =>
    rw [slots_cons, length_append, length_slotsOf] at h
    split_ifs at h <;> omega

/-- **The list that is built** from pure operands. -/
theorem convertArgs_eq (config : Config) (htypes : operands.map x.vmType = (operandTypes m).reverse) :
    ∃ argsList, convertArgs x config m (slots x operands) (vmMethodArgStackCount m) = some argsList ∧
      ArgsListCorrect x config m operands argsList := by
  have hslots := length_slots_operands htypes
  have hregs : ∀ index < nrTotalArgs m (vmMethodArgStackCount m), (exprArgReg config m index).isSome := fun _ =>
    exprArgReg_isSome
  have htotal : vmMethodArgStackCount m ≤ nrTotalArgs m (vmMethodArgStackCount m) := Nat.le_add_right _ _
  have hcorrect {argsList} (hlist : argsList.toList.reverse =
      (upFrom x (passedFrom m) (passed x m operands)).map fun p => argAt config m p.1 p.2) :
      ArgsListCorrect x config m operands argsList :=
    argsListCorrect_of_toList (isPair_passed htypes) (length_slots_passed htypes).le hlist
  rw [upFrom_passed m operands (vmMethodArgStackCount m)] at hcorrect
  obtain ⟨argsList, hloop, hargs⟩ := convertLoop_eq hregs operands [] none
    (by rw [hslots, length_nil, zero_add]) htotal
  have hreverse : (rootArgs argsList).reverse = (upFrom x (nrTotalArgs m (vmMethodArgStackCount m) - vmMethodArgStackCount m)
      operands.reverse).map fun p => argAt config m p.1 p.2 := by
    rw [hargs, rootArgs, nil_append, ← map_reverse, length_nil, Nat.sub_zero,
      reverse_downFrom operands (hslots.trans_le htotal), hslots]
  rw [nil_append, length_nil] at hloop
  rw [convertArgs]
  by_cases hzero : nrTotalArgs m (vmMethodArgStackCount m) = 0
  · obtain ⟨hcount, hhidden⟩ := Nat.add_eq_zero_iff.mp hzero
    have hjni : m.isJni = false := by
      by_contra hjni
      rw [if_pos (Bool.eq_true_of_not_eq_false hjni)] at hhidden
      cases hhidden
    refine ⟨.noArgs, if_pos hzero, hcorrect ?_⟩
    rw [eq_nil_of_length_slots (hslots.trans hcount), hjni]
    rfl
  · rw [if_neg hzero, hloop]
    cases hclass : m.isJni && m.isStatic with
    | true =>
      obtain ⟨hjni, hstatic⟩ := Bool.and_eq_true_iff.mp hclass
      have hone : 1 < nrTotalArgs m (vmMethodArgStackCount m) := by
        rw [nrTotalArgs, hjni, hstatic, if_pos rfl, if_pos rfl]
        omega
      obtain ⟨result, hinsert, hresult⟩ := insertArg_eq (hregs 1 hone) argsList x.classObject
      refine ⟨result, hinsert, hcorrect ?_⟩
      rw [hclass, hresult, reverse_append, hreverse]
      rfl
    | false =>
      cases argsList with
      | some argsList =>
        refine ⟨argsList, rfl, hcorrect ?_⟩
        rw [hclass]
        exact hreverse
      | none =>
        -- without operands the method is static, and without a class it has no arguments at all
        have hnil : operands = [] := by
          cases operands with
          | nil => rfl
          | cons expr operands => cases hargs
        have hcount : vmMethodArgStackCount m = 0 := by rw [← hslots, hnil]; rfl
        have hstatic : m.isStatic = true := by
          by_contra hstatic
          rw [vmMethodArgStackCount, if_neg hstatic] at hcount
          omega
        have hjni : m.isJni = false := by rwa [hstatic, Bool.and_true] at hclass
        refine absurd ?_ hzero
        rw [nrTotalArgs, hcount, hjni]
        rfl

/-- **The arguments of an invocation.** -/
theorem convertAndAddArgs_eq (x : Exprs E σ) (config : Config) (m : Method) (operands mimicStack : List E) (s : σ)
    (htypes : operands.map x.vmType = (operandTypes m).reverse) :
    ∃ argsList, convertAndAddArgs x config m (operands ++ mimicStack) s =
        some (.added argsList mimicStack (purify x operands s).2) ∧
      ArgsListCorrect x config m (purify x operands s).1 argsList := by
  have hslots := length_slots_operands htypes
  have hpure := (vmType_purify operands s).trans htypes
  have hpop := popArgs_eq operands mimicStack [] (hslots.symm.trans (zero_add _).symm)
  have hpurify := purifyArgs_eq operands [] s (hslots.symm.trans (zero_add _).symm)
  obtain ⟨argsList, hlist, hcorrect⟩ := convertArgs_eq config hpure
  have hverify : verifyArgTypes x (slots x (purify x operands s).1) (vmMethodArgStackCount m) m.args.reverse 0 =
      some true := by
    have hlen := length_slots_operands hpure
    rw [operandTypes, reverse_append] at hpure
    obtain ⟨params, others, hsplit, hparams, -⟩ := map_eq_append_iff.mp hpure
    rw [hsplit] at hlen ⊢
    refine verifyArgTypes_eq params others [] (hlen.symm.trans (zero_add _).symm) ?_
    rw [hparams, map_reverse]
  rw [hslots] at hpop
  refine ⟨argsList, ?_, hcorrect⟩
  simp only [nil_append, length_nil] at hpop hpurify
  simp only [convertAndAddArgs, hpop, hpurify, hverify, hlist, Option.bind_eq_bind, Option.bind_some, if_true]
  rfl

end Array

/-! ## A static JNI method with a double and an int -/

/-- Operands that are told apart by a number; odd numbers are doubles. -/
def numbered : Exprs Nat Unit where
  vmType n := if n = 0 then .reference else if n % 2 = 1 then .double else .int
  isPure _ := true
  dupExpr n s := (n, s)
  classObject := 0
  vmType_dupExpr _ _ := rfl
  vmType_classObject := rfl

/-- The class is passed first and the double and the int behind it, with the int pushed first. -/
theorem convertAndAddArgs_jni : [2, 1].map numbered.vmType = (operandTypes ⟨true, true, [.double, .boolean]⟩).reverse ∧
    ∃ argsList, convertAndAddArgs numbered .x86_64 ⟨true, true, [.double, .boolean]⟩ [2, 1] () =
        some (.added argsList [] ()) ∧
      ArgsListCorrect numbered .x86_64 ⟨true, true, [.double, .boolean]⟩ [2, 1] argsList :=
  ⟨by decide, convertAndAddArgs_eq numbered .x86_64 ⟨true, true, [.double, .boolean]⟩ [2, 1] [] () (by decide)⟩

end Jato.Jit.Args
