import ObjLang.Proofs.Emit.Total
import ObjLang.Proofs.Machine.Functions
import ObjLang.Proofs.Machine.Height
import ObjLang.Proofs.Parts

/-!
# ObjLang.Proofs.Emit.Height — operands in generated code

The code of an expression leaves one operand more than it finds; that of a statement finds none and
leaves none, wherever its jumps lead.  So a generated function has one operand where it returns, and
one at its end.
-/

namespace ObjLang

open Check Check.Facts
open Code (Instr)

/-! ### Straight-line code -/

/-- Whether an instruction goes on to the next one in any case. -/
def Op.straight : Op → Bool
  | ret | unreachable | jump _ | jumpIf _ | jumpUnless _ => false
  | _ => true

/-- The number of operands behind straight-line code that finds some, if it finds enough. -/
def LinkedModule.after (p : LinkedModule) : List Op → Nat → Option Nat
  | [], h => some h
  | op :: ops, h =>
    if op.straight ∧ op.takes p ≤ h then p.after ops (h - op.takes p + op.gives p) else none

namespace LinkedModule

variable {p : LinkedModule} {code : Array Op} {a b h h' h'' : Nat} {op : Op} {ops : List Op}

namespace Carries

theorem straight (hop : code[a]? = some op) (hst : op.straight = true) (htakes : op.takes p ≤ h) :
    p.Carries code True a h (a + 1) (h - op.takes p + op.gives p) := by
  have hbehind : op.behind p h = h - op.takes p + op.gives p := by
    cases op <;> first | rfl | cases hst
  have hnext : op.next a = [a + 1] := by
    cases op <;> first | rfl | cases hst
  have hlt := (Array.getElem?_eq_some_iff.1 hop).1
  rw [← hbehind]
  refine .single hop fun hh _ => ⟨hh ▸ htakes, fun j hj => ?_, ?_, ?_⟩
  · rw [hnext] at hj
    obtain rfl := List.mem_singleton.1 hj
    exact ⟨hlt, by rw [height_succ hop, hh, hbehind]⟩
  · rintro rfl
    cases hst
  · rintro rfl
    cases hst

theorem ofOps (hat : OpsAt code a ops) (hops : p.after ops h = some h') :
    p.Carries code True a h (a + ops.length) h' := by
  induction ops generalizing a h with
  | nil =>
    cases hops
    exact .refl p code a _
  | cons op ops ih =>
    simp only [after] at hops
    split at hops
    · next hop =>
      obtain ⟨hfirst, hrest⟩ := opsAt_cons.1 hat
      have hall := (Carries.straight hfirst hop.1 hop.2).trans (ih hrest hops)
      rwa [List.length_cons, Nat.add_comm ops.length 1, ← Nat.add_assoc]
    · cases hops

theorem ofCode {N : Names} {is : List Instr} (hat : CodeAt N code is a b)
    (his : p.after (is.map N.op) h = some h') : p.Carries code True a h b h' := by
  obtain ⟨hops, -, rfl⟩ := hat
  have hall := Carries.ofOps hops his
  rwa [List.length_map] at hall

end Carries

/-! ### Jumps -/

/-- A position without operands that a jump may lead to. -/
def Clear (p : LinkedModule) (code : Array Op) (i : Nat) : Prop :=
  i ≤ code.size ∧ p.height code i = 0

namespace Carries

theorem jump {k : Nat} (hop : code[a]? = some (.jump k)) :
    p.Carries code (p.Clear code k) a 0 (a + 1) 0 := by
  refine .single hop fun hh hk => ⟨Nat.zero_le _, fun j hj => ?_, nofun, nofun⟩
  obtain rfl := List.mem_singleton.1 hj
  exact ⟨hk.1, by rw [hk.2, hh]; rfl⟩

theorem jumpIf {k : Nat} (hop : code[a]? = some (.jumpIf k)) :
    p.Carries code (p.Clear code k) a 1 (a + 1) 0 := by
  have hlt := (Array.getElem?_eq_some_iff.1 hop).1
  refine .single hop fun hh hk => ⟨Nat.le_of_eq hh.symm, fun j hj => ?_, nofun, nofun⟩
  simp only [Op.next, List.mem_cons, List.not_mem_nil, or_false] at hj
  obtain rfl | rfl := hj
  · exact ⟨hlt, by rw [height_succ hop, hh]; rfl⟩
  · exact ⟨hk.1, by rw [hk.2, hh]; rfl⟩

theorem jumpUnless {k : Nat} (hop : code[a]? = some (.jumpUnless k)) :
    p.Carries code (p.Clear code k) a 1 (a + 1) 0 := by
  have hlt := (Array.getElem?_eq_some_iff.1 hop).1
  refine .single hop fun hh hk => ⟨Nat.le_of_eq hh.symm, fun j hj => ?_, nofun, nofun⟩
  simp only [Op.next, List.mem_cons, List.not_mem_nil, or_false] at hj
  obtain rfl | rfl := hj
  · exact ⟨hlt, by rw [height_succ hop, hh]; rfl⟩
  · exact ⟨hk.1, by rw [hk.2, hh]; rfl⟩

theorem ret (hop : code[a]? = some .ret) : p.Carries code True a 1 (a + 1) 0 :=
  .single hop fun hh _ => ⟨Nat.le_of_eq hh.symm, nofun, fun _ => hh, nofun⟩

end Carries

end LinkedModule

/-! ### Functions that are called -/

namespace Compiled

variable {p : Program} {c : CheckedProgram} {t₀ : State} {o : Options} {m : Code.Module}
  {L : LinkedModule}

theorem signature_host (h : Compiled p c t₀ o m L) {x : String} {f : HostFunction}
    (hx : (x, f) ∈ Emit.hostNames) :
    L.signature? (m.index x) = some (f.params, f.hasResult) :=
  LinkedModule.signature?_host (h.linked.host h.generated hx)

theorem signature_alloc (h : Compiled p c t₀ o m L) :
    L.signature? (m.index Emit.allocName) = some (1, true) :=
  LinkedModule.signature?_function h.alloc_function.1 h.alloc_function.2

theorem signature_root (h : Compiled p c t₀ o m L) :
    L.signature? (m.index (methodTarget rootClass initMethod)) = some (1, true) := by
  obtain ⟨himport, x, hf⟩ := h.root_function
  exact LinkedModule.signature?_function himport hf

theorem signature_definition (h : Compiled p c t₀ o m L) {outer : List FunDef} {d : FunDef}
    (hd : c.Nest outer d) :
    L.signature? (m.index (c.emitted d)) = some ((c.record d).totalArity, true) := by
  obtain ⟨himport, g, arr, -, hlen, hf⟩ := h.definition_function hd
  rw [LinkedModule.signature?_function himport hf, hlen]

/-- A function takes its parameters and its captures. -/
theorem signature_record (h : Compiled p c t₀ o m L) {id : FunId} {f : Function}
    (hf : t₀.functions[id.index]? = some f) :
    L.signature? (m.index f.emitted) = some (f.totalArity, true) := by
  obtain ⟨hroot, hparent, hone⟩ | ⟨outer, d, hd, hid, rfl⟩ := h.checked.function_cases hf
  · have hlen := h.checked.nest.state.arities id f hf
    have hnil := h.checked.nest.state.orphans id f hf hparent
    have harity : f.totalArity = 1 := by
      rw [Function.totalArity, hnil, hlen, hone]
      rfl
    rw [hroot, harity, h.signature_root]
  · have hemitted : (c.record d).emitted = c.emitted d := by
      rw [CheckedProgram.emitted, CheckedProgram.record, hid]
    rw [hemitted, h.signature_definition hd]

/-- The method for new objects takes the object. -/
theorem signature_init (h : Compiled p c t₀ o m L) {l : ClassLayout} (hl : l ∈ c.classes.layouts)
    {x : String} (hx : l.target? initMethod = some x) :
    L.signature? (m.index x) = some (1, true) := by
  obtain rfl | ⟨d, hd, rfl, -, hone⟩ := h.checked.target_cases hl hx
  · exact h.signature_root
  · have harity : (c.record d).totalArity = 1 := by
      rw [Function.totalArity, hone rfl, h.checked.captures_nil hd]
      rfl
    rw [h.signature_definition hd, harity]

/-- A method takes the receiver and the parameters behind it. -/
theorem method_arity (h : Compiled p c t₀ o m L) {k x : String} {id : FunId} {f : Function}
    (hid : (t₀.facts c.classes).methodId? k x = some id)
    (hf : t₀.functions[id.index]? = some f) :
    f.totalArity = f.paramTypes.length ∧ 0 < f.paramTypes.length := by
  have hlen := h.checked.nest.state.arities id f hf
  simp only [Facts.methodId?, State.facts, Option.bind_eq_bind, Option.bind_eq_some_iff] at hid
  obtain ⟨l, hl, target, htarget, hid⟩ := hid
  obtain ⟨f', hf', hparent, hemitted⟩ :=
    h.checked.nest.state.methods target id (Bindings.mem_of_lookup hid)
  cases hf.symm.trans hf'
  have hnil := h.checked.nest.state.orphans id f hf hparent
  refine ⟨by rw [Function.totalArity, hnil, hlen]; rfl, ?_⟩
  obtain ⟨-, -, hone⟩ | ⟨outer, d, hd, hdid, rfl⟩ := h.checked.function_cases hf
  · rw [hone]
    exact Nat.one_pos
  · have hd' : c.emitted d = target := by
      rw [← hemitted, CheckedProgram.emitted, CheckedProgram.record]
    rw [← hlen]
    obtain rfl | ⟨e, he, heq, hpos, -⟩ := h.checked.target_cases (ClassTable.get?_mem hl).1 htarget
    · exact absurd hd' (h.checked.emitted_ne_root h.words hd)
    · obtain rfl := h.checked.emitted_inj h.words hd he (hd'.trans heq.symm)
      exact hpos

/-- The signature of a function has its number of parameters and captures. -/
theorem arity_record (h : Compiled p c t₀ o m L) {id : FunId} {f : Function}
    (hf : t₀.functions[id.index]? = some f) (g : Code.Func) :
    (m.names g).arity (Code.signatureName f.totalArity) = f.totalArity := by
  rw [h.checked.functions_eq] at hf
  obtain ⟨t, ht, hparams⟩ := h.generated.arities f (Array.mem_of_getElem? hf)
  have hname : t.name = Code.signatureName f.totalArity := by
    rw [← hparams]
    exact h.generated.signed t ht
  exact h.generated.arity_eq (hname ▸ Emit.Generated.type?_isSome ht) g

/-! ### Expressions -/

variable {g : Code.Func} {code : Array Op} {F : Facts} {lv : List Level} {passes : String → Bool}
  {n n' a a' i k : Nat}

/-- What a call of a function by name does to the number of operands. -/
theorem carries_call {x : String} {params : Nat} {r : Bool}
    (hsig : L.signature? (m.index x) = some (params, r))
    (hop : code[a]? = some (.call (m.index x))) (hk : params ≤ k) :
    L.Carries code True a k (a + 1) (k - params + r.toNat) := by
  have htakes : (Op.call (m.index x)).takes L = params := by rw [Op.takes, hsig]; rfl
  have hgives : (Op.call (m.index x)).gives L = r.toNat := by rw [Op.gives, hsig]; rfl
  have hall := LinkedModule.Carries.straight hop rfl (Nat.le_trans (Nat.le_of_eq htakes) hk)
  rwa [htakes, hgives] at hall

theorem carries_loadVar {v : Variable} (hat : CodeAt (m.names g) code (Emit.loadVar v) a a') :
    L.Carries code True a k a' (k + 1) := by
  refine .ofCode hat ?_
  unfold Emit.loadVar
  split
  · rfl
  · split <;> rfl

theorem carries_loadCells {vs : List VarId}
    (hat : CodeAt (m.names g) code (vs.map fun v => .localGet (c.var v).name) a a') :
    L.Carries code True a k a' (k + vs.length) := by
  induction vs generalizing a k with
  | nil =>
    obtain rfl := codeAt_nil.1 hat
    exact .refl L code a' k
  | cons v vs ih =>
    obtain ⟨hop, -, hat⟩ := codeAt_cons.1 hat
    have hone : L.Carries code True a k (a + 1) (k + 1) :=
      .straight hop rfl (Nat.zero_le k)
    have hall := hone.trans (ih hat)
    rwa [Nat.add_assoc, Nat.add_comm 1] at hall

theorem carries_initFields {fs : List FieldLayout} {j : Nat}
    (hat : CodeAt (m.names g) code (Emit.initFields j fs) a a') :
    L.Carries code True a k a' k := by
  induction fs generalizing a j with
  | nil =>
    obtain rfl := codeAt_nil.1 hat
    exact .refl L code a' k
  | cons f fs ih =>
    obtain ⟨b, hfirst, hat⟩ := codeAt_append.1 hat
    have hone : L.Carries code True a k b k := .ofCode hfirst rfl
    exact hone.trans (ih hat)

/-- The place of a method in the table. -/
theorem carries_tableSlot {x : String} {w : Int32}
    (hat : CodeAt (m.names g) code [.localGet x, .load 0, .const w, .binary .add] a a') :
    L.Carries code True a k a' (k + 1) :=
  .ofCode hat rfl

theorem carries_allocWords (h : Compiled p c t₀ o m L) {words : Nat}
    (hat : CodeAt (m.names g) code (Emit.allocWords words) a a') :
    L.Carries code True a k a' (k + 1) := by
  obtain ⟨hop, -, hat⟩ := codeAt_cons.1 hat
  obtain ⟨hcall, -, rfl⟩ := codeAt_singleton.1 hat
  have hone : L.Carries code True a k (a + 1) (k + 1) := .straight hop rfl (Nat.zero_le k)
  exact hone.trans (carries_call h.signature_alloc hcall (Nat.succ_pos k))

theorem carries_construct (h : Compiled p c t₀ o m L) {l : ClassLayout}
    (hl : l ∈ c.classes.layouts) {init : String} (hinit : l.target? initMethod = some init)
    (hat : CodeAt (m.names g) code (Emit.constructCode l init) a a') :
    L.Carries code True a k a' (k + 1) := by
  obtain ⟨b₁, hat, hlast⟩ := codeAt_append.1 hat
  obtain ⟨b₂, hat, hfields⟩ := codeAt_append.1 hat
  obtain ⟨b₃, halloc, htable⟩ := codeAt_append.1 hat
  have hstore : L.Carries code True b₃ (k + 1) b₂ k := .ofCode htable rfl
  obtain ⟨hop₁, -, hlast⟩ := codeAt_cons.1 hlast
  obtain ⟨hcall, -, hlast⟩ := codeAt_cons.1 hlast
  have hget : L.Carries code True b₁ k (b₁ + 1) (k + 1) := .straight hop₁ rfl (Nat.zero_le k)
  have hinitCall : L.Carries code True (b₁ + 1) (k + 1) (b₁ + 1 + 1) (k + 1) :=
    carries_call (h.signature_init hl hinit) hcall (Nat.succ_pos k)
  have hdrop : L.Carries code True (b₁ + 1 + 1) (k + 1) a' (k + 1) := .ofCode hlast rfl
  exact (h.carries_allocWords halloc).trans (hstore.trans ((carries_initFields hfields).trans
    (hget.trans (hinitCall.trans hdrop))))

theorem carries_builtin (h : Compiled p c t₀ o m L) {f : Builtin} {args : List Expr}
    {is : List Instr} (his : Emit.builtinCode f args = some is)
    (hat : CodeAt (m.names g) code is a a') : L.Carries code True a (k + f.arity) a' (k + 1) := by
  have hprint : ∀ {x : String} (host : HostFunction), (x, host) ∈ Emit.hostNames →
      host.params = 1 → host.hasResult = false → is = [.call x, .const 0] →
      L.Carries code True a (k + 1) a' (k + 1) := by
    rintro x host hx hone hres rfl
    obtain ⟨hcall, -, hlast⟩ := codeAt_cons.1 hat
    have hsig := h.signature_host hx
    rw [hone, hres] at hsig
    exact (carries_call hsig hcall (Nat.succ_pos k)).trans (.ofCode hlast rfl)
  have hanswer : ∀ {x : String} (host : HostFunction), (x, host) ∈ Emit.hostNames →
      host.params = f.arity → host.hasResult = true → is = [.call x] →
      L.Carries code True a (k + f.arity) a' (k + 1) := by
    rintro x host hx harity hres rfl
    obtain ⟨hcall, -, rfl⟩ := codeAt_singleton.1 hat
    have hsig := h.signature_host hx
    rw [harity, hres] at hsig
    have hall := carries_call hsig hcall (Nat.le_add_left f.arity k)
    rwa [Nat.add_sub_cancel] at hall
  unfold Emit.builtinCode at his
  split at his
  · cases his
    exact hprint .printNum (by simp [Emit.hostNames]) rfl rfl rfl
  · cases his
    exact hprint .printBool (by simp [Emit.hostNames]) rfl rfl rfl
  · cases his
    exact hprint .printNone (by simp [Emit.hostNames]) rfl rfl rfl
  · cases his
  · cases his
    exact hanswer .abs (by simp [Emit.hostNames]) rfl rfl rfl
  · cases his
    exact hanswer .min (by simp [Emit.hostNames]) rfl rfl rfl
  · cases his
    exact hanswer .max (by simp [Emit.hostNames]) rfl rfl rfl
  · cases his
    exact hanswer .pow (by simp [Emit.hostNames]) rfl rfl rfl

mutual

/-- An expression leaves one operand. -/
theorem carries_expr (h : Compiled p c t₀ o m L) {e : Expr} {t : Ty} {n n' a a' : Nat}
    (he : (t₀.facts c.classes).ExprOk lv passes e t)
    (hat : Emit.ExprAt c (m.names g) code e n a n' a') (k : Nat) :
    L.Carries code True a k a' (k + 1) := by
  cases e with
  | literal i v =>
    obtain ⟨hat, -⟩ := hat
    exact .ofCode hat rfl
  | name i x v =>
    obtain ⟨u, -, hat, -⟩ := hat
    exact carries_loadVar hat
  | unary i op e =>
    simp only [ExprOk] at he
    obtain ⟨-, -, he⟩ := he
    cases op with
    | neg =>
      obtain ⟨b₁, b₂, hzero, hat, hsub⟩ := hat
      have hfirst : L.Carries code True a k b₁ (k + 1) := .ofCode hzero rfl
      have hlast : L.Carries code True b₂ (k + 1 + 1) a' (k + 1) := .ofCode hsub rfl
      exact hfirst.trans ((carries_expr h he hat (k + 1)).trans hlast)
    | not =>
      obtain ⟨b, hat, hnot⟩ := hat
      have hlast : L.Carries code True b (k + 1) a' (k + 1) := .ofCode hnot rfl
      exact (carries_expr h he hat k).trans hlast
  | binary i op l r =>
    simp only [ExprOk] at he
    obtain ⟨-, tl, tr, hl, hr, -⟩ := he
    obtain ⟨n₁, b₁, b₂, hatl, hatr, hop⟩ := hat
    have hlast : L.Carries code True b₂ (k + 1 + 1) a' (k + 1) := .ofCode hop rfl
    exact (carries_expr h hl hatl k).trans ((carries_expr h hr hatr (k + 1)).trans hlast)
  | call i callee args target =>
    simp only [ExprOk] at he
    cases target with
    | none => exact hat.elim
    | some target =>
      cases target with
      | construct y =>
        obtain ⟨l, init, hl, hinit, hat, -⟩ := hat
        exact h.carries_construct (ClassTable.get?_mem hl).1 hinit hat
      | function id us =>
        obtain ⟨-, f, hf, -, hargs, hcaptures⟩ := he
        obtain ⟨b₁, b₂, hats, hcells, hcall⟩ := hat
        obtain ⟨hop, -, rfl⟩ := codeAt_singleton.1 hcall
        have hus : us.length = f.captures.length := by
          obtain ⟨hparent, rfl⟩ | ⟨l, outer, -, -, hpass⟩ := hcaptures
          · rw [h.checked.nest.state.orphans id f hf hparent]
            rfl
          · exact hpass.length_eq
        have hcount : args.length + us.length = f.totalArity := by
          rw [argsOk_length hargs, hus, ← h.checked.nest.state.arities id f hf, Function.totalArity]
        have hop' : code[b₂]? = some (.call (m.index f.emitted)) := by
          rw [← Emit.function_eq h.checked hf]
          exact hop
        have hlast := carries_call (h.signature_record hf) hop'
          (k := k + args.length + us.length) (by omega)
        have hleft : k + args.length + us.length - f.totalArity + true.toNat = k + 1 := by
          rw [Bool.toNat_true]
          omega
        rw [hleft] at hlast
        exact (carries_exprs h (exprOk_of_argsOk hargs) hats k).trans
          ((carries_loadCells hcells).trans hlast)
      | builtin f =>
        obtain ⟨-, -, harity, hall⟩ := he
        obtain ⟨b, is, hats, his, hcode⟩ := hat
        have hargs := carries_exprs h (exprOk_of_allOk hall) hats k
        rw [harity] at hargs
        exact hargs.trans (h.carries_builtin his hcode)
  | field i o f =>
    simp only [ExprOk] at he
    obtain ⟨-, y, l, j, d, ho, -⟩ := he
    obtain ⟨l', j', d', b, -, -, hat, hcode⟩ := hat
    obtain ⟨hop, -, hload⟩ := codeAt_cons.1 hcode
    have hguard : L.Carries code True b (k + 1) (b + 1) (k + 1) :=
      carries_call (h.signature_host (f := .checkInit) (by simp [Emit.hostNames])) hop
        (Nat.succ_pos k)
    have hlast : L.Carries code True (b + 1) (k + 1) a' (k + 1) := .ofCode hload rfl
    exact (carries_expr h ho hat k).trans (hguard.trans hlast)
  | method i o x args =>
    simp only [ExprOk] at he
    obtain ⟨-, y, id, f, ho, hid, hf, -, hargs⟩ := he
    obtain ⟨l, slot, e, n₁, b₁, b₂, b₃, -, -, hato, hguard, hats, hcode⟩ := hat
    obtain ⟨harity, hpos⟩ := h.method_arity hid hf
    have hcount : args.length + 1 = f.totalArity := by
      have hlen := argsOk_length hargs
      rw [List.length_drop] at hlen
      omega
    obtain ⟨hop, -, hrest⟩ := codeAt_cons.1 hguard
    have hcheck : L.Carries code True b₁ (k + 1) (b₁ + 1) (k + 1) :=
      carries_call (h.signature_host (f := .checkInit) (by simp [Emit.hostNames])) hop
        (Nat.succ_pos k)
    have hkeep : L.Carries code True (b₁ + 1) (k + 1) b₂ (k + 1) := .ofCode hrest rfl
    have hcode : CodeAt (m.names g) code ([.localGet (Emit.receiverName n₁), .load 0,
        .const (Emit.word slot), .binary .add] ++
        [.callIndirect (Code.signatureName (args.length + 1))]) b₃ a' := hcode
    obtain ⟨b₄, hslot, hcall⟩ := codeAt_append.1 hcode
    obtain ⟨hop, -, rfl⟩ := codeAt_singleton.1 hcall
    have hindex := carries_tableSlot (L := L) (k := k + 1 + args.length) hslot
    have hparams := h.arity_record hf g
    rw [← hcount] at hparams
    have hop' : code[b₄]? = some (.callIndirect (args.length + 1)) :=
      hop.trans (congrArg (some ∘ Op.callIndirect) hparams)
    have hdispatch : L.Carries code True b₄ (k + 1 + args.length + 1) (b₄ + 1) (k + 1) := by
      have hall := LinkedModule.Carries.straight (p := L) (h := k + 1 + args.length + 1) hop' rfl
        (by rw [Op.takes]; omega)
      have hleft : k + 1 + args.length + 1 - (Op.callIndirect (args.length + 1)).takes L
          + (Op.callIndirect (args.length + 1)).gives L = k + 1 := by
        rw [Op.takes, Op.gives]
        omega
      rwa [hleft] at hall
    have hlast := hindex.trans hdispatch
    exact (carries_expr h ho hato k).trans (hcheck.trans (hkeep.trans
      ((carries_exprs h (exprOk_of_argsOk hargs) hats (k + 1)).trans hlast)))

/-- Arguments leave one operand each. -/
theorem carries_exprs (h : Compiled p c t₀ o m L) {es : List Expr} {n n' a a' : Nat}
    (hes : ∀ e ∈ es, ∃ t, (t₀.facts c.classes).ExprOk lv passes e t)
    (hat : Emit.ExprsAt c (m.names g) code es n a n' a') (k : Nat) :
    L.Carries code True a k a' (k + es.length) := by
  cases es with
  | nil =>
    obtain ⟨rfl, -⟩ := hat
    exact .refl L code a' k
  | cons e es =>
    obtain ⟨⟨t, he⟩, hes⟩ := List.forall_mem_cons.1 hes
    obtain ⟨n₁, b, hate, hats⟩ := hat
    have hall := (carries_expr h he hate k).trans (carries_exprs h hes hats (k + 1))
    rwa [Nat.add_assoc, Nat.add_comm 1] at hall

end

/-! ### Statements -/

theorem carries_assign (h : Compiled p c t₀ o m L) {value : Expr} {t : Ty}
    (hv : (t₀.facts c.classes).ExprOk lv passes value t) {target : Target} {t' : Ty}
    (ht : (t₀.facts c.classes).TargetOk lv passes target t')
    (hat : Emit.AssignAt c (m.names g) code value target n a n' a') :
    L.Carries code True a 0 a' 0 := by
  cases target with
  | name x v =>
    obtain ⟨u, b₁, b₂, -, hfirst, hat, hlast⟩ := hat
    -- The value lies on the address of the cell if there is one.
    by_cases hglobal : (c.var u).isGlobal = true
    · rw [if_neg (by simp [hglobal])] at hfirst
      rw [if_pos hglobal] at hlast
      obtain rfl := codeAt_nil.1 hfirst
      exact (h.carries_expr hv hat 0).trans (.ofCode hlast rfl)
    · by_cases hind : (c.var u).isIndirect = true
      · rw [if_pos ⟨by simpa using hglobal, hind⟩] at hfirst
        rw [if_neg hglobal, if_pos hind] at hlast
        have haddress : L.Carries code True a 0 b₁ 1 := .ofCode hfirst rfl
        exact haddress.trans ((h.carries_expr hv hat 1).trans (.ofCode hlast rfl))
      · rw [if_neg (fun hboth => hind hboth.2)] at hfirst
        rw [if_neg hglobal, if_neg hind] at hlast
        obtain rfl := codeAt_nil.1 hfirst
        exact (h.carries_expr hv hat 0).trans (.ofCode hlast rfl)
  | field x f =>
    obtain ⟨y, l, j, d, hx, -⟩ := ht
    obtain ⟨l', j', d', n₁, b₁, b₂, b₃, -, -, hato, hguard, hat, hstore⟩ := hat
    obtain ⟨hop, -, rfl⟩ := codeAt_singleton.1 hguard
    have hcheck : L.Carries code True b₁ 1 (b₁ + 1) 1 :=
      carries_call (h.signature_host (f := .checkInit) (by simp [Emit.hostNames])) hop
        (Nat.le_refl 1)
    exact (h.carries_expr hx hato 0).trans (hcheck.trans
      ((h.carries_expr hv hat 1).trans (.ofCode hstore rfl)))

mutual

/-- A statement finds no operands and leaves none. -/
theorem carries_stmt (h : Compiled p c t₀ o m L) {ret : Option Ty} {s : Stmt} {n n' a a' : Nat}
    (hs : (t₀.facts c.classes).StmtOk lv passes ret s)
    (hat : Emit.StmtAt c (m.names g) code s n a n' a') : L.Carries code True a 0 a' 0 := by
  cases s with
  | assign target value span =>
    simp only [StmtOk] at hs
    obtain ⟨t, t', hv, ht, -⟩ := hs
    exact h.carries_assign hv ht hat
  | expr value span =>
    simp only [StmtOk] at hs
    obtain ⟨t, hv⟩ := hs
    obtain ⟨b, hat, hlast⟩ := hat
    exact (h.carries_expr hv hat 0).trans (.ofCode hlast rfl)
  | ret value span =>
    simp only [StmtOk] at hs
    obtain ⟨t, t', hv, -⟩ := hs
    obtain ⟨b, hat, hlast⟩ := hat
    obtain ⟨hop, -, rfl⟩ := codeAt_singleton.1 hlast
    exact (h.carries_expr hv hat 0).trans (.ret hop)
  | pass span =>
    obtain ⟨rfl, -⟩ := hat
    exact .refl L code a' 0
  | cond first others otherwise span =>
    simp only [StmtOk] at hs
    obtain ⟨hfirst, hothers, hotherwise⟩ := hs
    obtain ⟨n₁, n₂, b₁, b₂, hatf, hato, hatw⟩ := hat
    have hall := (carries_branch h hfirst hatf).trans ((carries_branches h hothers hato).trans
      ((carries_block h hotherwise hatw).imp fun _ => trivial))
    exact hall.close fun _ _ hh hb _ => ⟨hb, hh⟩
  | loop branch span =>
    cases branch with
    | mk test body =>
      simp only [StmtOk, BranchOk] at hs
      obtain ⟨htest, hbody⟩ := hs
      obtain ⟨n₁, b₁, b₂, hat, hexit, hatb, hback, rfl⟩ := hat
      obtain ⟨heqz, hexit⟩ := opsAt_cons.1 hexit
      have hnot : L.Carries code True b₁ 1 (b₁ + 1) 1 := .straight heqz rfl (Nat.le_refl 1)
      have hout := LinkedModule.Carries.jumpIf (p := L) (opsAt_cons.1 hexit).1
      have hagain := LinkedModule.Carries.jump (p := L) (opsAt_cons.1 hback).1
      have hall : L.Carries code (L.Clear code (b₂ + 1) ∧ L.Clear code a) a 0 (b₁ + 1) 1 :=
        ((h.carries_expr htest hat 0).trans hnot).imp fun _ => trivial
      have hrest := (hout.imp And.left).trans
        (((carries_block h hbody hatb).imp fun _ => trivial).trans (hagain.imp And.right))
      exact (hall.trans hrest).close fun ha hb ha' hb' _ => ⟨⟨hb', ha'⟩, hb, ha⟩

/-- Statements find no operands and leave none. -/
theorem carries_block (h : Compiled p c t₀ o m L) {ret : Option Ty} {ss : List Stmt}
    {n n' a a' : Nat} (hss : (t₀.facts c.classes).BlockOk lv passes ret ss)
    (hat : Emit.BlockAt c (m.names g) code ss n a n' a') : L.Carries code True a 0 a' 0 := by
  cases ss with
  | nil =>
    obtain ⟨rfl, -⟩ := hat
    exact .refl L code a' 0
  | cons s ss =>
    simp only [BlockOk] at hss
    obtain ⟨n₁, b, hat, hats⟩ := hat
    exact (carries_stmt h hss.1 hat).trans (carries_block h hss.2 hats)

/-- A branch finds no operands and leaves none, if there are none where it leaves to. -/
theorem carries_branch (h : Compiled p c t₀ o m L) {ret : Option Ty} {b : Branch}
    {exit n n' a a' : Nat} (hb : (t₀.facts c.classes).BranchOk lv passes ret b)
    (hat : Emit.BranchAt c (m.names g) code exit b n a n' a') :
    L.Carries code (L.Clear code exit) a 0 a' 0 := by
  cases b with
  | mk test body =>
    simp only [BranchOk] at hb
    obtain ⟨n₁, b₁, b₂, hat, hskip, hatb, hout, rfl⟩ := hat
    have hskips := LinkedModule.Carries.jumpUnless (p := L) (opsAt_cons.1 hskip).1
    have houts := LinkedModule.Carries.jump (p := L) (opsAt_cons.1 hout).1
    have hall : L.Carries code (L.Clear code (b₂ + 1) ∧ L.Clear code exit) a 0 b₁ 1 :=
      (h.carries_expr hb.1 hat 0).imp fun _ => trivial
    have hrest := (hskips.imp And.left).trans
      (((carries_block h hb.2 hatb).imp fun _ => trivial).trans (houts.imp And.right))
    exact (hall.trans hrest).close fun _ _ hh hb' he => ⟨⟨hb', hh⟩, he⟩

theorem carries_branches (h : Compiled p c t₀ o m L) {ret : Option Ty} {bs : List Branch}
    {exit n n' a a' : Nat} (hbs : (t₀.facts c.classes).BranchesOk lv passes ret bs)
    (hat : Emit.BranchesAt c (m.names g) code exit bs n a n' a') :
    L.Carries code (L.Clear code exit) a 0 a' 0 := by
  cases bs with
  | nil =>
    obtain ⟨rfl, -⟩ := hat
    exact (LinkedModule.Carries.refl L code a' 0).imp fun _ => trivial
  | cons b bs =>
    simp only [BranchesOk] at hbs
    obtain ⟨n₁, i, hat, hats⟩ := hat
    exact (carries_branch h hbs.1 hat).trans (carries_branches h hbs.2 hats)

end

/-- There are no operands where a statement starts and where it ends. -/
theorem height_standsAt (h : Compiled p c t₀ o m L) {ret : Option Ty} {ss : List Stmt} {s : Stmt}
    {b b' : Nat} (hss : (t₀.facts c.classes).BlockOk lv passes ret ss)
    (hst : Emit.StandsAt c (m.names g) code ss a s b b') (ha : L.height code a = 0) :
    L.height code b = 0 ∧ L.height code b' = 0 := by
  induction hst with
  | head hat =>
    simp only [BlockOk] at hss
    exact ⟨ha, (h.carries_stmt hss.1 hat).height ha⟩
  | tail hat _ ih =>
    simp only [BlockOk] at hss
    exact ih hss.2 ((h.carries_stmt hss.1 hat).height ha)
  | loop htest hexit _ ih =>
    simp only [BlockOk, StmtOk, BranchOk] at hss
    obtain ⟨⟨htestOk, hbody⟩, -⟩ := hss
    obtain ⟨heqz, hexit⟩ := opsAt_cons.1 hexit
    have hall := ((h.carries_expr htestOk htest 0).height ha)
    refine ih hbody ?_
    have hnot := (LinkedModule.Carries.straight (p := L) (h := 1) heqz rfl (Nat.le_refl 1)).height hall
    exact (LinkedModule.Carries.jumpIf (opsAt_cons.1 hexit).1).height hnot
  | branch heq hbefore htest hskip _ ih =>
    simp only [BlockOk, StmtOk] at hss
    obtain ⟨⟨hfirst, hothers, -⟩, -⟩ := hss
    have hall := List.forall_mem_cons.2 ⟨hfirst, branchesOk_iff.1 hothers⟩
    rw [heq, List.forall_mem_append, List.forall_mem_cons] at hall
    obtain ⟨hok, hbr, -⟩ := hall
    simp only [BranchOk] at hbr
    have hstart := (h.carries_branches (branchesOk_iff.2 hok) hbefore).height ha
    have hvalue := (h.carries_expr hbr.1 htest 0).height hstart
    exact ih hbr.2 ((LinkedModule.Carries.jumpUnless (opsAt_cons.1 hskip).1).height hvalue)
  | otherwise hall _ ih =>
    simp only [BlockOk, StmtOk] at hss
    obtain ⟨⟨hfirst, hothers, hotherwise⟩, -⟩ := hss
    have hbranches := branchesOk_iff.2 (List.forall_mem_cons.2 ⟨hfirst, branchesOk_iff.1 hothers⟩)
    exact ih hotherwise ((h.carries_branches hbranches hall).height ha)

/-! ### Functions -/

theorem carries_boxCode (h : Compiled p c t₀ o m L) {vs : List Variable}
    (hat : CodeAt (m.names g) code (vs.flatMap Emit.boxParam) a a') :
    L.Carries code True a 0 a' 0 := by
  induction vs generalizing a with
  | nil =>
    obtain rfl := codeAt_nil.1 hat
    exact .refl L code a' 0
  | cons v vs ih =>
    rw [List.flatMap_cons] at hat
    obtain ⟨b, hfirst, hat⟩ := codeAt_append.1 hat
    obtain ⟨b₁, halloc, hmove⟩ := codeAt_append.1 hfirst
    exact (h.carries_allocWords halloc).trans ((LinkedModule.Carries.ofCode hmove rfl).trans
      (ih hat))

theorem carries_initCode (h : Compiled p c t₀ o m L) {vars : List VarDef}
    (hat : CodeAt (m.names g) code (Emit.initCode c vars) a a') :
    L.Carries code True a 0 a' 0 := by
  induction vars generalizing a with
  | nil =>
    obtain rfl := codeAt_nil.1 hat
    exact .refl L code a' 0
  | cons d vars ih =>
    rw [Emit.initCode, List.flatMap_cons] at hat
    obtain ⟨b, hfirst, hat⟩ := codeAt_append.1 hat
    have hone : L.Carries code True a 0 b 0 := by
      unfold Emit.initLocal at hfirst
      split at hfirst
      · obtain ⟨b₁, halloc, hinit⟩ := codeAt_append.1 hfirst
        exact (h.carries_allocWords halloc).trans (.ofCode hinit rfl)
      · exact .ofCode hfirst rfl
    exact hone.trans (ih hat)

/-- From its start to its end a function comes to have one operand. -/
theorem carries_definition (h : Compiled p c t₀ o m L) {outer : List FunDef} {d : FunDef}
    (hd : c.Nest outer d) (hat : Emit.FunctionAt c (m.names g) code d (c.record d)) :
    L.Carries code True 0 0 code.size 1 := by
  obtain ⟨id, -, -, hf, -⟩ := h.checked.record_ok hd
  obtain ⟨b₁, b₂, n, b₃, hbox, hinit, hat, hlast⟩ := hat
  exact (h.carries_boxCode hbox).trans ((h.carries_initCode hinit).trans
    ((h.carries_block hf.body hat).trans (.ofCode hlast rfl)))

theorem carries_entry (h : Compiled p c t₀ o m L) (hat : Emit.EntryAt c (m.names g) code) :
    L.Carries code True 0 0 code.size 1 := by
  obtain ⟨n, b, hat, hlast⟩ := hat
  have hvalue : L.Carries code True b 0 code.size 1 := by
    split at hlast
    · exact .ofCode hlast rfl
    · exact .ofCode hlast rfl
  exact (h.carries_block h.checked.body hat).trans hvalue

/-- A linked function whose code comes to have one operand is balanced, if it has no name twice. -/
theorem balanced_of_carries (h : m.Links L) {f : LinkedFunction} (hlink : g.link m = .ok f)
    (hnd : (g.params ++ g.locals).Nodup) (hc : L.Carries f.code True 0 0 f.code.size 1) :
    f.Balanced L := by
  have hwrites : ∀ {i : Nat} {op : Op}, f.code[i]? = some op → g.Writes m g.body op :=
    fun hop => Code.Func.link_writes hlink _ (Array.mem_of_getElem? hop)
  have hslots : f.slots = g.slots := by
    obtain ⟨s, -, -, rfl⟩ := Code.Func.link_eq_ok hlink
    rfl
  have hglobals : L.globals.size = m.globals.length := by
    rw [h.globals, List.size_toArray, List.length_map]
  refine ⟨hc.height rfl, fun i op hop => ?_, fun i k hop => ?_, fun i k hop => ?_⟩
  · exact hc.fits rfl (Nat.zero_le _) trivial i op (Nat.zero_le i)
      (Array.getElem?_eq_some_iff.1 hop).1 hop
  · rw [hslots]
    obtain hop | hop := hop
    · obtain ⟨x, -, hx⟩ := hwrites hop
      exact g.fits_iff.2 hnd x k hx
    · obtain ⟨x, -, hx⟩ := hwrites hop
      exact g.fits_iff.2 hnd x k hx
  · rw [hglobals]
    obtain hop | hop := hop
    · obtain ⟨x, -, hx⟩ := hwrites hop
      exact Code.Module.globalIndex_lt hx
    · obtain ⟨x, -, hx⟩ := hwrites hop
      exact Code.Module.globalIndex_lt hx

theorem opsAt_toArray (ops : List Op) : OpsAt ops.toArray 0 ops := by
  intro i op hi
  rw [Nat.zero_add, List.getElem?_toArray]
  exact hi

/-- All functions of a compiled program are balanced. -/
theorem balanced (h : Compiled p c t₀ o m L) (hL : m.link = .ok L) :
    ∀ f ∈ L.functions.toList, f.Balanced L := by
  have hlinks := Code.Module.link_eq_ok hL
  intro f hf
  obtain ⟨g, hg, hlink⟩ := exists_of_forall₂ hlinks.functions.flip hf
  obtain ⟨gs, e, hgs, hds, hentry⟩ := h.generated.functions
  have hnamed := h.generated.named h.checked
  rw [hgs] at hg
  simp only [List.mem_append, List.mem_cons, List.not_mem_nil, or_false] at hg
  obtain ((rfl | rfl) | hg) | rfl := hg
  · cases h.generated.alloc_link.symm.trans hlink
    refine balanced_of_carries hlinks hlink (by decide) ?_
    have hall := LinkedModule.Carries.ofOps (p := L) (h := 0) (opsAt_toArray
      (Emit.allocFunction.body.map (m.names Emit.allocFunction).op)) rfl
    exact hall
  · cases (Emit.Generated.root_link h.checked m).symm.trans hlink
    refine balanced_of_carries hlinks hlink ?_ ?_
    · obtain ⟨r, hr, -, -, -, -, -, hlen, -⟩ := h.checked.root
      have hparams : (Emit.rootFunction c).params.length = 1 := by
        rw [Emit.rootFunction, Emit.varNames, List.length_map, Emit.function_eq h.checked hr, hlen]
      obtain ⟨x, hx⟩ := List.length_eq_one_iff.1 hparams
      have hlocals : (Emit.rootFunction c).locals = [] := rfl
      rw [hx, hlocals]
      exact List.nodup_singleton x
    · exact LinkedModule.Carries.ofOps (p := L) (h := 0) (opsAt_toArray [.const 0]) rfl
  · obtain ⟨d, hd, id, fr, hb⟩ := exists_of_forall₂ hds.flip hg
    obtain ⟨outer, hnest⟩ := CheckedProgram.exists_nest hd
    have hrecord : c.record d = fr := by
      obtain ⟨id', hid', -, hfo, -⟩ := h.checked.record_ok hnest
      cases hid'.symm.trans hb.id_eq
      have heq : t₀.functions[id.index]? = some (c.record d) := hfo.record
      rw [h.checked.functions_eq] at heq
      exact Option.some.inj (heq.symm.trans hb.record)
    obtain ⟨arr, harr, hat⟩ := hb.links m hnamed fun t ht => Emit.Generated.type?_isSome ht
    cases harr.symm.trans hlink
    exact balanced_of_carries hlinks hlink hb.frames.nodup
      (h.carries_definition hnest (hrecord ▸ hat))
  · obtain ⟨arr, harr, hat⟩ := hentry.links m hnamed fun t ht => Emit.Generated.type?_isSome ht
    cases harr.symm.trans hlink
    refine balanced_of_carries hlinks hlink ?_ (h.carries_entry hat)
    rw [hentry.params]
    exact hentry.nodup

end Compiled

end ObjLang
