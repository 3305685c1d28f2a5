import ObjLang.Proofs.Emit.Height
import ObjLang.Proofs.Emit.Total
import ObjLang.Proofs.Machine.Typed.Supply

/-!
# ObjLang.Proofs.Machine.Typed.Access — variables and host functions

What a variable, a cell or a builtin function gives suits its type.  `Gives` is what is to be shown
of an expression: that the call goes on with one more operand, which suits the type of the
expression.
-/

namespace ObjLang

open Check Check.Facts

/-! ### Types -/

section

variable {c : CheckedProgram} {bs : List Block} {x y v : Int32} {t : Ty}

/-- The value of an operation suits the type of the operator. -/
theorem CheckedProgram.suits_binary {op : BinaryOp} {a b : Ty} (h : binaryType? op a b = some t)
    (hv : (Emit.binaryOp op).eval x y = .ok v) : c.Suits bs v t := by
  have htruth : ∀ {z : Bool}, truthWord z = v → t = .bool → c.Suits bs v t := by
    rintro z rfl rfl
    exact c.suits_truthWord bs z
  cases op <;> simp [binaryType?, BinaryOp.isArithmetic, BinaryOp.isOrdering,
    BinaryOp.isEquality] at h <;>
    obtain ⟨-, rfl⟩ := h <;>
    first
      | trivial
      | (simp only [Emit.binaryOp, WordOp.eval, Except.ok.injEq] at hv; exact htruth hv rfl)

end

namespace CheckedOk

variable {p : Program} {c : CheckedProgram} {s : State} {v : VarId} {r : Variable}

theorem typeOf_eq (h : CheckedOk p c s) (hr : s.vars.get? v = some r) : c.typeOf v = r.ty.ty := by
  rw [CheckedProgram.typeOf, Emit.var_eq h hr]

/-- Variables of functions that stand for the same one have the same type. -/
theorem typeOf_home (h : CheckedOk p c s) {u : VarId} {q : Variable} (hr : s.vars.get? v = some r)
    (hg : r.isGlobal = false) (hq : s.vars.get? u = some q) (hqg : q.isGlobal = false)
    (heq : s.vars.home v = s.vars.home u) : c.typeOf v = c.typeOf u := by
  obtain ⟨a, ha, -, -, hty, -⟩ := h.nest.state.get?_home hr hg
  obtain ⟨b, hb, -, -, hty', -⟩ := h.nest.state.get?_home hq hqg
  rw [heq, hb] at ha
  cases ha
  rw [h.typeOf_eq hr, h.typeOf_eq hq, ← hty, ← hty']

end CheckedOk

namespace Setting

variable {w : Setting} {s₀ : Trace} {t₀ : State} {b : Body} {Q R : Trace → Prop}
  {k lim n m m' i a a' : Nat} {H H' H₁ : Ledger} {s s' s₁ : Trace} {S : List Int32} {v x : Int32}
  {t : Ty}

/-- A property holds of what follows when the call goes on at a position with one more operand, of a
type. -/
def Gives (w : Setting) (s₀ : Trace) (b : Body) (Q R : Trace → Prop) (n m : Nat) (H : Ledger)
    (s : Trace) (a : Nat) (S : List Int32) (t : Ty) : Prop :=
  ∀ H' s' v, w.Moves s₀ b m H s H' s' → w.program.Suits H'.blocks v t →
    w.Goes s₀ Q R n H' (s'.on a (v :: S))

theorem Gives.follow (h : w.Gives s₀ b Q R n m H s a S t) (hm : w.Moves s₀ b m H s H₁ s₁)
    (hle : m ≤ m') : w.Gives s₀ b Q R n m' H₁ s₁ a S t :=
  fun _ _ v hm' hv => h _ _ v (hm.trans hm' hle) hv

namespace Holds

/-- A function with statements is not the allocator. -/
theorem outside (h : w.Holds s₀ t₀ b Q k lim H s) (hsource : b.source ≠ []) : w.Outside b := by
  obtain ⟨p, o, hw⟩ := h.compiled
  have hmem : b.name ∈ w.module.functionNames :=
    h.body.name ▸ Emit.mem_functionNames h.body.mem
  have hne : b.name ≠ Emit.allocName := by
    obtain hnil | hst := h.body.statements
    · exact absurd hnil hsource
    generalize b.name = x, b.source = ss, b.start = start at hst
    cases hst with
    | entry => decide
    | definition hd =>
      exact hw.checked.emitted_ne_made hw.words hd
          (by decide : Emit.allocName.toList = '#' :: ['a', 'l', 'l', 'o', 'c'])
  exact fun heq => hne (Code.Module.index_inj hmem hw.alloc_mem heq)

/-! ### Variables -/

/-- What a name denotes is a variable of the module or one of the function. -/
theorem reaches_cases (h : w.Holds s₀ t₀ b Q k lim H s) {y : String} {u : VarId}
    (hu : (t₀.facts w.program.classes).Reaches b.levels y u) :
    ((w.program.var u).isGlobal = true ∧ ∃ d ∈ w.program.program.vars,
        (w.program.var u).name = d.var.name.name ∧ d.binding = some u) ∨
      ((w.program.var u).isGlobal = false ∧ u ∈ b.vars) := by
  obtain ⟨p, o, hw⟩ := h.compiled
  obtain ⟨r, hr, hn, ⟨hg, hl⟩ | hown⟩ := hu
  · obtain ⟨d, hd, hdx, hdu⟩ := hw.checked.module y u hl
    rw [Emit.var_eq hw.checked hr]
    exact .inl ⟨hg, d, hd, by rw [hn, hdx], hdu⟩
  · exact .inr ⟨h.body.notGlobal u (h.body.own y u hown), h.body.own y u hown⟩

/-- The address of a block in memory. -/
theorem position_block (h : w.Holds s₀ t₀ b Q k lim H s) {B : Block} (hB : B ∈ H.blocks) (j : Nat) :
    Memory.position (Int32.ofNat B.address) j = B.address + j := by
  obtain ⟨-, -, -, hsize⟩ := h.heap.inside B hB
  have hstop : B.stop = B.address + 4 * B.kind.words := rfl
  have hlt := h.solid.size
  exact Memory.position_ofNat (by omega) j

/-- A word in a block lies in the memory. -/
theorem block_inside (h : w.Holds s₀ t₀ b Q k lim H s) {B : Block} (hB : B ∈ H.blocks) {j : Nat}
    (hj : j < B.kind.words) : B.address + 4 * j + 4 ≤ w.size := by
  obtain ⟨-, -, -, hsize⟩ := h.heap.inside B hB
  have hstop : B.stop = B.address + 4 * B.kind.words := rfl
  omega

/-- A word in a block is read. -/
theorem loadBlock (h : w.Holds s₀ t₀ b Q k lim H s) (hlim : i < lim) {B : Block}
    (hB : B ∈ H.blocks) {j : Nat} (hj : j < B.kind.words)
    (hop : b.code[i]? = some (.load (4 * j)))
    (hu : ∀ v, B.kind.Takes w.program H.blocks j v → w.Goes s₀ Q R n H (s.on (i + 1) (v :: S))) :
    w.Goes s₀ Q R n H (s.on i (Int32.ofNat B.address :: S)) := by
  refine h.load hlim hop ?_ (hu _ ?_)
  · rw [h.position_block hB]
    exact h.block_inside hB hj
  · rw [h.position_block hB]
    exact h.heap.words B hB j hj

/-- The value of a variable. -/
theorem loadVar (h : w.Holds s₀ t₀ b Q k lim H s) (hp : w.Past b) {y : String} {u : VarId}
    (hu : (t₀.facts w.program.classes).Reaches b.levels y u)
    (hcode : CodeAt (w.names b) b.code (Emit.loadVar (w.program.var u)) a a') (hlim : a' ≤ lim)
    (hgo : ∀ v, w.program.Suits H.blocks v (w.program.typeOf u) →
      w.Goes s₀ Q R n H (s.on a' (v :: S))) :
    w.Goes s₀ Q R n H (s.on a S) := by
  unfold Emit.loadVar at hcode
  obtain ⟨hg, d, hd, hname, hbinding⟩ | ⟨hg, hmem⟩ := h.reaches_cases hu
  · rw [if_pos hg, hname] at hcode
    obtain ⟨hop, -, rfl⟩ := codeAt_singleton.1 hcode
    obtain ⟨v, hv, hsuits⟩ := h.heap.globals d hd u hbinding
    exact h.globalGet (by omega) hop hv (hgo v hsuits)
  · rw [if_neg (by rw [hg]; exact Bool.false_ne_true)] at hcode
    obtain ⟨v, hv, hok⟩ := h.vars hp u hmem
    rw [← h.body.slot u hmem] at hv
    split at hcode
    · next hind =>
      rw [if_pos hind] at hok
      obtain ⟨B, hB, u', rfl, hkind, -, hty⟩ := hok
      obtain ⟨hop, -, hcode⟩ := codeAt_cons.1 hcode
      obtain ⟨hop', -, rfl⟩ := codeAt_singleton.1 hcode
      refine h.localGet (by omega) hop hv ?_
      refine h.loadBlock (by omega) hB (j := 0) (by rw [hkind]; exact Nat.one_pos) hop' fun v hv => ?_
      rw [hkind] at hv
      exact hgo v (hty ▸ hv)
    · next hind =>
      rw [if_neg hind] at hok
      obtain ⟨hop, -, rfl⟩ := codeAt_singleton.1 hcode
      exact h.localGet (by omega) hop hv (hgo v hok)

/-- The cells that are passed to a nested function. -/
theorem loadCells (h : w.Holds s₀ t₀ b Q k lim H s) (hp : w.Past b) {us : List VarId}
    (hcode : CodeAt (w.names b) b.code (us.map fun u => .localGet (w.program.var u).name) a a')
    (hlim : a' ≤ lim)
    (hown : ∀ u ∈ us, u ∈ b.vars ∧ (w.program.var u).isIndirect = true)
    (hu : ∀ cs, List.Forall₂ (fun x u => w.CellOf H.blocks x u) cs us →
      w.Goes s₀ Q R n H (s.on a' (cs.reverse ++ S))) :
    w.Goes s₀ Q R n H (s.on a S) := by
  induction us generalizing a S with
  | nil =>
    obtain rfl := codeAt_nil.1 hcode
    exact hu [] .nil
  | cons u us ih =>
    obtain ⟨hop, -, hcode⟩ := codeAt_cons.1 hcode
    have hle := Emit.codeAt_le hcode
    obtain ⟨hmem, hind⟩ := hown u List.mem_cons_self
    obtain ⟨x, hx, hok⟩ := h.vars hp u hmem
    rw [← h.body.slot u hmem] at hx
    rw [if_pos hind] at hok
    refine h.localGet (by omega) hop hx ?_
    refine ih hcode (fun u' hu' => hown u' (List.mem_cons_of_mem _ hu')) fun cs hcs => ?_
    have hall := hu (x :: cs) (.cons hok hcs)
    rwa [List.reverse_cons, List.append_assoc] at hall

/-! ### Builtin functions -/

/-- A host function that prints leaves the empty reference. -/
theorem print (h : w.Holds s₀ t₀ b Q k lim H s) {y : String} {f : HostFunction}
    (hy : (y, f) ∈ Emit.hostNames) (hres : f.hasResult = false)
    (hcode : CodeAt (w.names b) b.code [.call y, .const 0] a a') (hlim : a' ≤ lim)
    {vs : List Int32} (hvs : vs.length = f.params) (hgo : w.Gives s₀ b Q R n m H s a' S .none) :
    w.Goes s₀ Q R n H (s.on a (vs ++ S)) := by
  obtain ⟨p, o, hw⟩ := h.compiled
  obtain ⟨hop, -, hcode⟩ := codeAt_cons.1 hcode
  obtain ⟨hop', -, rfl⟩ := codeAt_singleton.1 hcode
  refine h.host (m := m) (by omega) hop (hw.linked.host hw.generated hy) hvs
    (fun _ s' hm => ?_) fun hres' => ?_
  · exact (h.follow hm).const (by omega) hop' (hgo H s' 0 hm rfl)
  · rw [hres] at hres'
    cases hres'

/-- A host function that gives a number. -/
theorem answer (h : w.Holds s₀ t₀ b Q k lim H s) {y : String} {f : HostFunction}
    (hy : (y, f) ∈ Emit.hostNames) (hres : f.hasResult = true)
    (hcode : CodeAt (w.names b) b.code [.call y] a a') (hlim : a' ≤ lim)
    {vs : List Int32} (hvs : vs.length = f.params) (hgo : w.Gives s₀ b Q R n m H s a' S .int) :
    w.Goes s₀ Q R n H (s.on a (vs ++ S)) := by
  obtain ⟨p, o, hw⟩ := h.compiled
  obtain ⟨hop, -, rfl⟩ := codeAt_singleton.1 hcode
  refine h.host (m := m) (by omega) hop (hw.linked.host hw.generated hy) hvs (fun hres' => ?_)
    fun _ v => ?_
  · rw [hres] at hres'
    cases hres'
  · exact hgo H s v (h.refl m) trivial

theorem builtin (h : w.Holds s₀ t₀ b Q k lim H s) {f : Builtin} {args : List Expr}
    {is : List Code.Instr} (his : Emit.builtinCode f args = some is)
    (hcode : CodeAt (w.names b) b.code is a a') (hlim : a' ≤ lim) {vs : List Int32}
    (hvs : vs.length = f.arity) (hgo : w.Gives s₀ b Q R n m H s a' S (builtinType f)) :
    w.Goes s₀ Q R n H (s.on a (vs ++ S)) := by
  unfold Emit.builtinCode at his
  split at his
  · cases his
    exact h.print (f := .printNum) (by simp [Emit.hostNames]) rfl hcode hlim hvs hgo
  · cases his
    exact h.print (f := .printBool) (by simp [Emit.hostNames]) rfl hcode hlim hvs hgo
  · cases his
    exact h.print (f := .printNone) (by simp [Emit.hostNames]) rfl hcode hlim hvs hgo
  · cases his
  · cases his
    exact h.answer (f := .abs) (by simp [Emit.hostNames]) rfl hcode hlim hvs hgo
  · cases his
    exact h.answer (f := .min) (by simp [Emit.hostNames]) rfl hcode hlim hvs hgo
  · cases his
    exact h.answer (f := .max) (by simp [Emit.hostNames]) rfl hcode hlim hvs hgo
  · cases his
    exact h.answer (f := .pow) (by simp [Emit.hostNames]) rfl hcode hlim hvs hgo

/-! ### Temporaries -/

/-- A local that the generator made up gets a value. -/
theorem setMade (h : w.Holds s₀ t₀ b Q k lim H s) {y : String} {rest : List Char}
    (hy : y.toList = '#' :: rest) (hmem : y ∈ (w.names b).frame) (hlim : i < lim)
    (hop : b.code[i]? = some (.localSet ((w.names b).slot y)))
    (hm : ∀ j < m, Emit.receiverName j ≠ y)
    (hu : ∀ s', w.Moves s₀ b m H s H s' → s' = s.withLocal ((w.names b).slot y) v →
      s'.thread.frame.locals[(w.names b).slot y]? = some v → w.Goes s₀ Q R n H (s'.on (i + 1) S)) :
    w.Goes s₀ Q R n H (s.on i (v :: S)) := by
  refine h.localSet hlim hop fun hlt => hu _ (h.moves_local (fun u hu => ?_) fun j hj hmem' heq => ?_)
    rfl (Array.getElem?_setIfInBounds_self_of_lt hlt)
  · exact h.body.made y rest hy hmem u hu
  · exact hm j hj (Names.slot_inj hmem hmem' heq).symm

theorem receiverName_inj {i j : Nat} (h : Emit.receiverName i = Emit.receiverName j) : i = j :=
  Nat.repr_inj.1 ((String.append_right_inj "#recv").1 h)

/-- A local with a name that starts otherwise holds no receiver. -/
theorem receiverName_ne {y : String} {c : Char} {rest : List Char} (hy : y.toList = '#' :: c :: rest)
    (hc : c ≠ 'r') (j : Nat) : Emit.receiverName j ≠ y := by
  intro heq
  have hstart : "#recv".toList = '#' :: ['r', 'e', 'c', 'v'] := by decide
  have hchars := Emit.toList_append_repr hstart j
  rw [← Emit.receiverName, heq, hy] at hchars
  simp only [List.cons_append, List.cons.injEq, true_and] at hchars
  exact hc hchars.1

end Holds

end Setting

end ObjLang
