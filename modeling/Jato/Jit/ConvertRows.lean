import Jato.Jit.ConvertSim

/-!
# Every bytecode is converted to its meaning

Constants, arithmetic, conversions, local variables and fields keep the relation `Sim`, and so does every row of the
tables: the converter that `converters` has for an opcode follows the decoder of that opcode (`converters_row`).
-/

namespace Jato.Jit

open Jato.Vm Option
open BitVec (ofInt toNat_ofInt)
open Jato.Lib (Runs)

variable {F D H Φ : Type} {w : Platform F D H Φ} {code : List UInt8} {start st st' : TreeState F D H} {wide : Bool}
  {opc : Nat} {ctx ctx' : ParseContext D Φ} {fr fr' : Frame F D H} {e : Expr D Φ} {v : Value F D}

/-! ## Constants -/

variable {t : VmType} {conv : Nat → Convert D Φ Unit} {f : StackOp F D} {x : Int} {insn : Nat → Insn F D}
  {op : BinaryOperator}

theorem evalValue_vmType {x : BitVec 64} (h : evalValue x t = some v) : v.vmType = t := by
  cases t <;> cases h <;> rfl

theorem evalFvalue_vmType {A : FloatArith F D} {x : D} (h : evalFvalue A x t = some v) : v.vmType = t := by
  cases t <;> cases h <;> rfl

theorem const_follows {x : BitVec 64} (hv : evalValue x t = some v) :
    StackFollows w opc (push v) (doConvertConst x t) := by
  refine follows fun _ _ => .push (e := .value t x) ⟨⟨trivial, fun _ => ?_⟩, (evalValue_vmType hv).symm⟩
  simp [eval, hv]

theorem fvalue_follows {x : D} (hv : evalFvalue w.toFloatArith x t = some v) :
    StackFollows w opc (push v) (doConvertFconst x t) := by
  refine follows fun _ _ => .push (e := .fvalue t x) ⟨⟨trivial, fun _ => ?_⟩, (evalFvalue_vmType hv).symm⟩
  simp [eval, hv]

theorem opc_follows (hf : StackFollows w opc f (conv opc)) : StackFollows w opc f (getOpc >>= conv) := by
  intro _ _ ctx _ _ _ h hs
  refine .bind (.of_eq rfl ?_)
  rw [h.opc_eq]
  exact hf h hs

theorem setWidth_ofInt (x : Int) : (ofInt 64 x).setWidth 32 = ofInt 32 x := by
  apply BitVec.eq_of_toNat_eq
  rw [BitVec.toNat_setWidth, toNat_ofInt, toNat_ofInt]
  omega

theorem setWidth_signExtend (x : BitVec 32) : (x.signExtend 64).setWidth 32 = x := by
  apply BitVec.eq_of_getLsbD_eq
  intro i hi
  rw [BitVec.getLsbD_setWidth, BitVec.getLsbD_signExtend]
  simp [hi, Nat.lt_trans hi (show 32 < 64 by decide)]

theorem pushInt_follows (x : Int) : StackFollows w opc (pushInt x) (doConvertConst (ofInt 64 x) .int) := by
  apply const_follows
  rw [evalValue, setWidth_ofInt]

theorem iconst_follows (hx : x = opc - opcIconst0) : StackFollows w opc (pushInt x) convertIconstN := by
  subst hx
  exact opc_follows (pushInt_follows _)

theorem lconst_follows (hx : x = opc - opcLconst0) :
    StackFollows w opc (push (.long (ofInt 64 x))) convertLconstN := by
  subst hx
  exact opc_follows (const_follows rfl)

theorem fconst_follows (hx : x = opc - opcFconst0) (hlt : ofInt 32 x < 3) :
    StackFollows w opc (push (.float (w.i2f (ofInt 32 x)))) (convertFconstN w) := by
  subst hx
  refine opc_follows (fvalue_follows ?_)
  rw [evalFvalue, w.d2f_i2d _ hlt]

theorem dconst_follows (hx : x = opc - opcDconst0) :
    StackFollows w opc (push (.double (w.i2d (ofInt 32 x)))) (convertDconstN w) := by
  subst hx
  exact opc_follows (fvalue_follows rfl)

variable {i : Nat} {heap : H} {d : Decoder F D}

theorem ldc_follows : StackFollows w opc (loadConstant w i) (doConvertLdc w i) := by
  intro _ _ ctx st fr s h hs
  obtain ⟨c, hc, rfl⟩ := map_eq_some_iff.mp hs
  simp only [doConvertLdc, hc]
  have he : Operand w st ctx.nextVar (constantExpr w c) c := by
    cases c with
    | int x =>
      refine ⟨⟨trivial, fun _ => ?_⟩, rfl⟩
      simp [constantExpr, eval, evalValue, setWidth_signExtend]
    | long x | double x | ref x => exact ⟨⟨trivial, fun _ => rfl⟩, rfl⟩
    | float x =>
      refine ⟨⟨trivial, fun _ => ?_⟩, rfl⟩
      simp [constantExpr, eval, evalFvalue, w.d2f_f2d]
  exact .of_eq rfl ⟨st, h.push he.pushable⟩

/-! ## Arithmetic -/

/-- The operand that an operation reads. -/
class Reads {α : Type} (p : Value F D → Option α) (mk : outParam (α → Value F D)) : Prop where
  eq_mk {v : Value F D} {a : α} (h : p v = some a) : v = mk a

instance : Reads (intOf (F := F) (D := D)) .int where
  eq_mk {v _} h := by
    cases v <;> cases h
    rfl

instance : Reads (longOf (F := F) (D := D)) .long where
  eq_mk {v _} h := by
    cases v <;> cases h
    rfl

instance : Reads (floatOf (F := F) (D := D)) .float where
  eq_mk {v _} h := by
    cases v <;> cases h
    rfl

instance : Reads (doubleOf (F := F) (D := D)) .double where
  eq_mk {v _} h := by
    cases v <;> cases h
    rfl

section Operators

variable {α β : Type} {p : Value F D → Option α} {q : Value F D → Option β} {mkA : α → Value F D} {mkB : β → Value F D}
  {t : VmType}

theorem binop_follows [Reads p mkA] [Reads q mkB] {f : α → β → Option (Value F D)}
    (hf : ∀ a b, evalBinop w.toFloatArith op (mkA a) (mkB b) = f a b) (ht : ∀ a, binopType (mkA a).vmType op = t) :
    StackFollows w opc (binary (on₂ p q f)) (convertBinop t op) := by
  refine follows fun st n => .pop rfl fun er r hr => .pop rfl fun el l hl => .result fun v hon => ?_
  obtain ⟨a, ha, hon⟩ := bind_eq_some_iff.mp hon
  obtain ⟨b, hb, hv⟩ := bind_eq_some_iff.mp hon
  obtain rfl := Reads.eq_mk ha
  obtain rfl := Reads.eq_mk hb
  rw [← hf] at hv
  refine ⟨⟨⟨hl.stable, hr.stable⟩, fun h' => ?_⟩, ((evalBinop_vmType hv).trans (ht a)).symm⟩
  simp [eval, hl.eval, hr.eval, hv]

variable {f : α → Value F D}

theorem unary_follows [Reads p mkA] {mk : Expr D Φ → Expr D Φ}
    (hf : ∀ {st n ea} a, Operand w st n ea (mkA a) → Operand w st n (mk ea) (f a)) :
    StackFollows w opc (unary (on₁ p f)) (stackPop >>= fun e => convertExpression (mk e)) := by
  refine follows fun st n => .pop rfl fun ea u hea => .result fun v hv => ?_
  obtain ⟨a, ha, rfl⟩ := map_eq_some_iff.mp hv
  obtain rfl := Reads.eq_mk ha
  exact hf a hea

theorem unaryOp_follows [Reads p mkA] {op : UnaryOperator}
    (hf : ∀ a, evalUnaryOp w.toFloatArith op (mkA a) = some (f a)) (ht : ∀ a, (mkA a).vmType = t) :
    StackFollows w opc (unary (on₁ p f)) (convertUnaryOp t op) := by
  refine unary_follows fun a ha => ?_
  refine ⟨⟨ha.stable, fun h' => ?_⟩, ((evalUnaryOp_vmType (hf a)).trans (ht a)).symm⟩
  simp [eval, ha.eval, hf]

theorem conversion_follows [Reads p mkA]
    (hf : ∀ a, evalConversion w.toFloatArith (conversionType (mkA a).vmType t) t (mkA a) = some (f a)) :
    StackFollows w opc (unary (on₁ p f)) (convertConversion t) := by
  refine unary_follows fun a ha => ?_
  refine ⟨⟨ha.stable, fun h' => ?_⟩, (evalConversion_vmType (hf a)).symm⟩
  simp [eval, ha.eval, ha.vmType, hf]

end Operators

theorem truncation_follows {f : BitVec 32 → BitVec 32}
    (hf : ∀ a, evalTruncation t (.int a : Value F D) = some (.int (f a))) :
    StackFollows w opc (unary (on₁ intOf fun a => .int (f a))) (convertTruncation t) := by
  refine follows fun st n => .pop rfl fun ea u hea => ?_
  rintro _ _ ctx _ _ rfl hsim hs
  obtain ⟨v, hv, rfl⟩ := map_eq_some_iff.mp hs
  obtain ⟨a, ha, rfl⟩ := map_eq_some_iff.mp hv
  obtain rfl := Reads.eq_mk ha
  have he : Operand w st ctx.nextVar (truncationExpr t ea) (.int (f a)) := by
    refine ⟨⟨hea.stable, fun h' => ?_⟩, rfl⟩
    simp [truncationExpr, eval, hea.eval, hf]
  have hint : ea.vmType = .int := hea.vmType
  rw [if_pos hint]
  exact .of_eq rfl ⟨st, hsim.push he.pushable⟩

/-! ## Local variables and fields -/

/-- The converter does what the instruction does to the frame. -/
def ExecFollows (w : Platform F D H Φ) (wide : Bool) (opc : Nat) (insn : Insn F D) (conv : Convert D Φ Unit) : Prop :=
  ∀ {code start ctx st fr fr'}, Sim w code start wide opc ctx st fr → exec w insn fr = some fr' →
    Runs conv ctx fun _ ctx' => ∃ st', Sim w code start wide opc ctx' st' fr'

/-- Fixing the value of an expression that is not stable, and pushing it. -/
theorem dup_push (h : Sim w code start wide opc ctx st fr) (he : eval w st e fr.heap = some (v, heap))
    (ht : mimicStackType e.vmType = v.vmType) : Runs (dupExpr e >>= convertExpression) ctx fun _ ctx' =>
      ∃ st', Sim w code start wide opc ctx' st' { fr with heap := heap, stack := v :: fr.stack } := by
  refine h.dupExpr he fun temp ctx' st' _ hsim hd _ htemp => ?_
  have hp : Pushable w st' ctx'.nextVar temp v := ⟨hd _, by rw [Expr.vmType_setVmType, htemp, ht]⟩
  exact .of_eq rfl ⟨st', hsim.push hp⟩

theorem statement_push (h : Sim w code start wide opc ctx st fr) {stmt : Statement D Φ} {locals : Locals F D}
    (hx : execStatement w st stmt = some { st with locals := locals, heap := heap }) :
    Runs (convertStatement stmt) ctx fun _ ctx' => ∃ st', Sim w code start wide opc ctx' st'
      { fr with locals := locals, heap := heap } :=
  .of_eq rfl ⟨_, h.statement hx ⟨Nat.le_refl _, fun _ _ => rfl, rfl, rfl⟩⟩

theorem getLocal_vmType {l : Locals F D} (h : getLocal l t i = some v) : v.vmType = t := by
  simpa using (filter_eq_some_iff.mp h).2

theorem load_follows (t : VmType) (i : Nat) (ht : mimicStackType t = t) :
    ExecFollows w wide opc (.load t i) (convertLoad i t) := by
  intro _ _ ctx st fr _ h hx
  obtain ⟨v, hv, rfl⟩ := map_eq_some_iff.mp hx
  have he : eval w st (.localVar t i) fr.heap = some (v, fr.heap) := by
    simp [eval, h.locals_eq, hv]
  exact dup_push h he (ht.trans (getLocal_vmType hv).symm)

theorem store_follows (t : VmType) (i : Nat) : ExecFollows w wide opc (.store t i) (convertStore i t) := by
  rintro code start ctx st ⟨pc, locals, heap, _ | ⟨v, stk⟩⟩ fr' h hx
  · cases hx
  simp only [exec] at hx
  split at hx <;> cases hx
  refine h.pop rfl fun e es he hsim => ?_
  refine statement_push hsim ?_
  have hheap := h.heap_eq
  have hlocals := h.locals_eq
  simp [execStatement, he.eval, hheap, hlocals]

theorem iinc_follows (i : Nat) (x : Int) : ExecFollows w wide opc (.iinc i (ofInt 32 x))
    (convertStatement (.store (.localVar .int i)
      (.binop .int .add (.localVar .int i) (.value .int (ofInt 64 x))))) := by
  intro _ _ ctx st fr _ h hx
  simp only [exec] at hx
  split at hx <;> cases hx
  rename_i y hy
  refine statement_push h ?_
  rw [← h.heap_eq]
  simp [execStatement, eval, h.locals_eq, hy, evalValue, setWidth_ofInt, evalBinop, evalInt]

section Fields

variable {α : Type} {Q : α → ParseContext D Φ → Prop} {φ : Φ} {s : List (Value F D)}

section

variable (h : Sim w code start wide opc ctx st fr)

include h

theorem Sim.advance (k : Nat) :
    Sim w code start wide opc { ctx with pos := ctx.pos + k } st { fr with pc := fr.pc + k } :=
  { h with pos_eq := by rw [h.pos_eq] }

theorem Sim.lookupField (hφ : w.resolveField (readU16 code fr.pc) = some φ)
    {f : Φ → Convert D Φ α} (hf : Sim w code start wide opc { ctx with pos := ctx.pos + 2 } st
      { fr with pc := fr.pc + 2 } → Runs (f φ) { ctx with pos := ctx.pos + 2 } Q) :
    Runs (Jit.lookupField w >>= f) ctx Q := by
  have hindex : w.resolveField (readU16 ctx.code ctx.pos) = some φ := by
    rw [h.code_eq, h.pos_eq]
    exact hφ
  refine .bind (.bind (.of_eq rfl ?_))
  rw [hindex]
  exact .pure (hf (h.advance 2))

theorem Sim.popRef {r : BitVec 64} (hs : fr.stack = .ref r :: s) (hr : r ≠ 0) {f : Expr D Φ → Convert D Φ α}
    (hf : ∀ e es, (∀ heap, eval w st e heap = some (.ref r, heap)) →
      Sim w code start wide opc { ctx with mimicStack := es } st { fr with stack := s } →
      Runs (f e) { ctx with mimicStack := es } Q) :
    Runs (stackPop >>= fun ref => nullCheckExpr ref >>= f) ctx Q := by
  refine h.pop hs fun e es he hsim => ?_
  have hcheck : nullCheckExpr e = (pure (.nullCheck .reference e) : Convert D Φ (Expr D Φ)) := if_pos he.vmType
  rw [hcheck]
  refine .bind (.pure (hf (.nullCheck .reference e) es (fun heap => ?_) hsim))
  simp only [eval, he.eval, refOf, bind_eq_bind, bind_some, if_neg hr]

end

/-- The converter follows a form of its decoder. -/
def FormFollows (w : Platform F D H Φ) (wide : Bool) (opc : Nat) (form : Form F D) (conv : Convert D Φ Unit) : Prop :=
  ∀ {code start ctx st fr fr'}, Sim w code start wide opc ctx st fr →
    exec w (form.insn code fr.pc) { fr with pc := fr.pc + form.size } = some fr' →
    Runs conv ctx fun _ ctx' => ∃ st', Sim w code start wide opc ctx' st' fr'

theorem getstatic_follows :
    FormFollows w wide opc ⟨2, fun code p => .getstatic (readU16 code p)⟩ (convertGetstatic w) := by
  intro _ _ ctx st fr _ h hx
  obtain ⟨φ, hφ, hx⟩ := bind_eq_some_iff.mp hx
  obtain ⟨⟨v, heap⟩, hv, hx⟩ := bind_eq_some_iff.mp hx
  cases hx
  exact h.lookupField hφ fun hsim => dup_push hsim hv (w.getStatic_vmType hv).symm

theorem putstatic_follows :
    FormFollows w wide opc ⟨2, fun code p => .putstatic (readU16 code p)⟩ (convertPutstatic w) := by
  rintro code start ctx st ⟨pc, locals, heap, _ | ⟨v, stk⟩⟩ fr' h hx
  · cases hx
  obtain ⟨φ, hφ, hx⟩ := bind_eq_some_iff.mp hx
  obtain ⟨heap', hput, hx⟩ := bind_eq_some_iff.mp hx
  cases hx
  refine h.lookupField hφ fun hsim => hsim.pop rfl fun e es he hsim => ?_
  refine statement_push hsim ?_
  have hheap := h.heap_eq
  rw [← show st.locals = locals from h.locals_eq]
  simp [execStatement, he.eval, hheap, hput]

theorem getfield_follows :
    FormFollows w wide opc ⟨2, fun code p => .getfield (readU16 code p)⟩ (convertGetfield w) := by
  rintro code start ctx st ⟨pc, locals, heap, _ | ⟨v, stk⟩⟩ fr' h hx
  · cases hx
  cases v <;> try cases hx
  rename_i r
  simp only [exec] at hx
  split at hx
  · cases hx
  rename_i hr
  obtain ⟨φ, hφ, hx⟩ := bind_eq_some_iff.mp hx
  obtain ⟨v, hv, hx⟩ := bind_eq_some_iff.mp hx
  cases hx
  refine h.lookupField hφ fun hsim => hsim.popRef rfl hr fun e es he hsim => ?_
  have heval : eval w st (.instanceField (w.fieldType φ) φ e) heap = some (v, heap) := by
    simp [eval, he, refOf, hv]
  exact dup_push hsim heval (w.getField_vmType hv).symm

theorem putfield_follows :
    FormFollows w wide opc ⟨2, fun code p => .putfield (readU16 code p)⟩ (convertPutfield w) := by
  rintro code start ctx st ⟨pc, locals, heap, _ | ⟨v, _ | ⟨u, stk⟩⟩⟩ fr' h hx
  · cases hx
  · cases hx
  cases u <;> try cases hx
  rename_i r
  simp only [exec] at hx
  split at hx
  · cases hx
  rename_i hr
  obtain ⟨φ, hφ, hx⟩ := bind_eq_some_iff.mp hx
  obtain ⟨heap', hput, hx⟩ := bind_eq_some_iff.mp hx
  cases hx
  refine h.lookupField hφ fun hsim => hsim.pop rfl fun e es he hsim => hsim.popRef rfl hr fun o es' ho hsim => ?_
  refine statement_push hsim ?_
  have hheap := h.heap_eq
  rw [← show st.locals = locals from h.locals_eq]
  simp [execStatement, he.eval, ho, refOf, hheap, hput]

end Fields

/-! ## The tables -/

/-- The converter follows every form of a decoder. -/
structure Row (w : Platform F D H Φ) (opc : Nat) (d : Decoder F D) (conv : Convert D Φ Unit) : Prop where
  narrow : FormFollows w false opc d.narrow conv
  wide : ∀ form, d.wide = some form → FormFollows w true opc form conv

theorem row_operands {size : Nat} {insn : List UInt8 → Nat → Insn F D} {conv : Convert D Φ Unit}
    (hf : FormFollows w false opc ⟨size, insn⟩ conv) : Row w opc (operands size insn) conv :=
  ⟨hf, nofun⟩

theorem exec_stack {conv : Convert D Φ Unit} (hf : StackFollows w opc f conv) :
    ExecFollows w false opc (.stack f) conv := by
  intro _ _ _ _ _ _ h hx
  obtain ⟨s, hs, rfl⟩ := map_eq_some_iff.mp hx
  exact hf h hs

section

variable {α : Type} {size : Nat} {r : List UInt8 → Nat → α} {reader : Convert D Φ α} {i : α → Insn F D}
  {conv : α → Convert D Φ Unit}

theorem form_read
    (hr : ∀ ctx, ctx.isWide = wide → reader ctx = some (r ctx.code ctx.pos, { ctx with pos := ctx.pos + size }))
    (hf : ∀ x, ExecFollows w wide opc (i x) (conv x)) :
    FormFollows w wide opc ⟨size, fun code p => i (r code p)⟩ (reader >>= conv) := by
  intro code _ ctx _ fr _ h hx
  have hread : r ctx.code ctx.pos = r code fr.pc := by rw [h.code_eq, h.pos_eq]
  exact .bind (.of_eq (hr ctx h.wide_eq) (hread ▸ hf _ (h.advance size) hx))

theorem row_read (hr : ∀ ctx, reader ctx = some (r ctx.code ctx.pos, { ctx with pos := ctx.pos + size }))
    {f : α → StackOp F D} (hf : ∀ x, StackFollows w opc (f x) (conv x)) :
    Row w opc (operands size fun code p => .stack (f (r code p))) (reader >>= conv) :=
  row_operands (form_read (i := fun x => .stack (f x)) (fun ctx _ => hr ctx) fun x => exec_stack (hf x))

end

theorem row_indexed
    (hf : ∀ wide i, ExecFollows w wide opc (insn i) (conv i)) : Row w opc (indexed insn) (readIndex >>= conv) where
  narrow := form_read (fun ctx h => if_neg (ne_of_eq_of_ne h Bool.false_ne_true)) (hf false)
  wide form hform := by
    cases hform
    exact form_read (fun ctx h => if_pos h) (hf true)

theorem row_plain {insn : Insn F D}
    (hf : ExecFollows w false opc insn (conv opc)) : Row w opc (plain insn) (getOpc >>= conv) where
  narrow h hx := by
    refine .bind (.of_eq rfl ?_)
    rw [h.opc_eq]
    exact hf h hx
  wide := (by rintro _ ⟨⟩)

theorem row_iinc : Row w opc iincDecoder convertIinc where
  narrow {code start ctx st fr fr'} h hx := by
    have hread : readIinc ctx =
        some ((readU8 code fr.pc, readS8 code (fr.pc + 1)), { ctx with pos := ctx.pos + 2 }) := by
      simp [readIinc, h.wide_eq, ← h.code_eq, ← h.pos_eq]
    exact .bind (.of_eq hread (iinc_follows _ _ (h.advance 2) hx))
  wide form hform {code start ctx st fr fr'} h hx := by
    cases hform
    have hread : readIinc ctx =
        some ((readU16 code fr.pc, readS16 code (fr.pc + 2)), { ctx with pos := ctx.pos + 4 }) := by
      simp [readIinc, h.wide_eq, ← h.code_eq, ← h.pos_eq]
    exact .bind (.of_eq hread (iinc_follows _ _ (h.advance 4) hx))

/-- The table of converters has a converter for the decoder, which follows it. -/
def Converted (w : Platform F D H Φ) (rec : Convert D Φ Unit) (p : Nat × Decoder F D) : Prop :=
  ∃ conv, converters w rec p.1 = some conv ∧ Row w p.1 p.2 conv

namespace Converted

variable {rec : Convert D Φ Unit}

theorem of_row {conv : Convert D Φ Unit} (hr : Row w opc d conv)
    (hc : converters w rec opc = some conv) : Converted w rec (opc, d) :=
  ⟨conv, hc, hr⟩

theorem stack {conv : Convert D Φ Unit} (hf : StackFollows w opc f conv)
    (hc : converters w rec opc = some conv) : Converted w rec (opc, plain (.stack f)) :=
  of_row ⟨exec_stack hf, nofun⟩ hc

variable {α β : Type} {p : Value F D → Option α} {q : Value F D → Option β} {mkA : α → Value F D}
  {mkB : β → Value F D} [Reads p mkA] {t : VmType}

theorem binop [Reads q mkB] (hc : converters w rec opc = some (convertBinop t op))
    {f : α → β → Option (Value F D)} (hf : ∀ a b, evalBinop w.toFloatArith op (mkA a) (mkB b) = f a b)
    (ht : ∀ a, binopType (mkA a).vmType op = t) : Converted w rec (opc, binaryOf (on₂ p q f)) :=
  stack (binop_follows hf ht) hc

theorem unaryOp {op : UnaryOperator} (hc : converters w rec opc = some (convertUnaryOp t op)) {f : α → Value F D}
    (hf : ∀ a, evalUnaryOp w.toFloatArith op (mkA a) = some (f a)) (ht : ∀ a, (mkA a).vmType = t) :
    Converted w rec (opc, unaryOf (on₁ p f)) :=
  stack (unaryOp_follows hf ht) hc

theorem conversion (hc : converters w rec opc = some (convertConversion t)) {f : α → Value F D}
    (hf : ∀ a, evalConversion w.toFloatArith (conversionType (mkA a).vmType t) t (mkA a) = some (f a)) :
    Converted w rec (opc, unaryOf (on₁ p f)) :=
  stack (conversion_follows hf) hc

/-- The four opcodes from `base` on, whose converter subtracts the base. -/
theorem of_nForms {base : Nat} (hf : ∀ i opc, ExecFollows w false opc (insn i) (conv i))
    (hc : ∀ i < 4, converters w rec (base + i) = some (getOpc >>= fun opc => conv (opc - base))) :
    ∀ p ∈ nForms base insn, Converted w rec p := by
  have hrow i (hi : i < 4) : Converted w rec (base + i, plain (insn i)) := by
    refine of_row (row_plain ?_) (hc i hi)
    rw [Nat.add_sub_cancel_left]
    exact hf i _
  simp only [nForms, List.forall_mem_cons]
  exact ⟨hrow 0 (by decide), hrow 1 (by decide), hrow 2 (by decide), hrow 3 (by decide), by simp⟩

end Converted

theorem forall_lt_four {P : Nat → Prop} (h₀ : P 0) (h₁ : P 1) (h₂ : P 2) (h₃ : P 3) : ∀ i < 4, P i
  | 0, _ => h₀
  | 1, _ => h₁
  | 2, _ => h₂
  | 3, _ => h₃

section Tables

variable (w : Platform F D H Φ) (rec : Convert D Φ Unit)

theorem converted_constants : ∀ p ∈ constantRows w, Converted w rec p := by
  simp only [constantRows, List.forall_mem_cons]
  exact ⟨.stack nop_follows rfl, .stack (const_follows rfl) rfl, .stack (iconst_follows rfl) rfl,
    .stack (iconst_follows rfl) rfl, .stack (iconst_follows rfl) rfl, .stack (iconst_follows rfl) rfl,
    .stack (iconst_follows rfl) rfl, .stack (iconst_follows rfl) rfl, .stack (iconst_follows rfl) rfl,
    .stack (lconst_follows rfl) rfl, .stack (lconst_follows rfl) rfl, .stack (fconst_follows rfl (by decide)) rfl,
    .stack (fconst_follows rfl (by decide)) rfl, .stack (fconst_follows rfl (by decide)) rfl,
    .stack (dconst_follows rfl) rfl, .stack (dconst_follows rfl) rfl,
    .of_row (row_read (fun _ => rfl) pushInt_follows) rfl, .of_row (row_read (fun _ => rfl) pushInt_follows) rfl,
    .of_row (row_read (fun _ => rfl) fun _ => ldc_follows) rfl,
    .of_row (row_read (fun _ => rfl) fun _ => ldc_follows) rfl,
    .of_row (row_read (fun _ => rfl) fun _ => ldc_follows) rfl, by simp⟩

theorem converted_loads : ∀ p ∈ (loadRows : List (Nat × Decoder F D)), Converted w rec p := by
  have hf t (ht : mimicStackType t = t) i opc :
      ExecFollows w false opc (.load t i) (convertLoad i t) := load_follows t i ht
  simp only [loadRows, List.forall_mem_append, List.forall_mem_cons]
  and_intros
  all_goals first
    | exact .of_row (row_indexed fun _ i => load_follows _ i rfl) rfl
    | exact .of_nForms (hf _ rfl) (forall_lt_four rfl rfl rfl rfl)
    | exact (by simp)

theorem converted_stores : ∀ p ∈ (storeRows : List (Nat × Decoder F D)), Converted w rec p := by
  have hf t i opc : ExecFollows w false opc (.store t i) (convertStore i t) := store_follows t i
  simp only [storeRows, List.forall_mem_append, List.forall_mem_cons]
  and_intros
  all_goals first
    | exact .of_row (row_indexed fun _ i => store_follows _ i) rfl
    | exact .of_row row_iinc rfl
    | exact .of_nForms (hf _) (forall_lt_four rfl rfl rfl rfl)
    | exact (by simp)

theorem converted_ostack : ∀ p ∈ (ostackRows : List (Nat × Decoder F D)), Converted w rec p := by
  simp only [ostackRows, List.forall_mem_cons]
  exact ⟨.stack pop_follows rfl, .stack pop2_follows rfl, .stack dup_follows rfl, .stack dupX1_follows rfl,
    .stack dupX2_follows rfl, .stack dup2_follows rfl, .stack dup2X1_follows rfl, .stack dup2X2_follows rfl,
    .stack swap_follows rfl, by simp⟩

theorem converted_arithmetic : ∀ p ∈ arithmeticRows w, Converted w rec p := by
  simp only [arithmeticRows, List.forall_mem_cons]
  and_intros
  all_goals first
    | exact .binop rfl (fun _ _ => by rfl) fun _ => by rfl
    | exact .unaryOp rfl (fun _ => by rfl) fun _ => by rfl
    | exact (by simp)

theorem converted_conversions : ∀ p ∈ conversionRows w, Converted w rec p := by
  simp only [conversionRows, List.forall_mem_cons]
  and_intros
  all_goals first
    | exact .conversion rfl fun _ => by rfl
    | exact .stack (truncation_follows fun _ => rfl) rfl
    | exact (by simp)

theorem converted_fields : ∀ p ∈ (fieldRows : List (Nat × Decoder F D)), Converted w rec p := by
  simp only [fieldRows, List.forall_mem_cons]
  exact ⟨.of_row (row_operands getstatic_follows) rfl, .of_row (row_operands putstatic_follows) rfl,
    .of_row (row_operands getfield_follows) rfl, .of_row (row_operands putfield_follows) rfl, by simp⟩

/-- **Every bytecode of the semantics has a converter that follows it.** -/
theorem converters_row {opc : Nat} (h : decoder w opc = some d) : Converted w rec (opc, d) := by
  have hmem := decoder_mem h
  simp only [decoderRows, List.mem_append] at hmem
  rcases hmem with (((((h | h) | h) | h) | h) | h) | h
  · exact converted_constants w rec _ h
  · exact converted_loads w rec _ h
  · exact converted_stores w rec _ h
  · exact converted_ostack w rec _ h
  · exact converted_arithmetic w rec _ h
  · exact converted_conversions w rec _ h
  · exact converted_fields w rec _ h

end Tables

end Jato.Jit
