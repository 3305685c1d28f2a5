import ObjLang.Proofs.Machine.Typed.Object

/-!
# ObjLang.Proofs.Machine.Typed.Value — values of expressions

The code of a checked expression leaves a word that suits the type of the expression, by a ledger
that goes on from the one before; on the way nothing traps for want of a block or a method.
-/

namespace ObjLang

open Check Check.Facts

/-- Arguments that have some property can be those of parameters of their own types. -/
theorem Check.Facts.argsOk_of_allOk {F : Facts} {lv : List Level} {passes : String → Bool}
    {good : Ty → Prop} {es : List Expr} (h : F.AllOk lv passes good es) :
    ∃ ts, F.ArgsOk lv passes es ts := by
  induction es with
  | nil => exact ⟨[], trivial⟩
  | cons e es ih =>
    obtain ⟨⟨t, ht, -⟩, hes⟩ := h
    obtain ⟨ts, hts⟩ := ih hes
    exact ⟨t :: ts, ⟨t, ht, F.classes.isAssignable_refl t⟩, hts⟩

namespace Setting

variable {w : Setting} {s₀ : Trace} {t₀ : State} {b : Body} {Q R : Trace → Prop}
  {k lim n m i a a' : Nat} {H H' : Ledger} {s s' : Trace} {S xs : List Int32} {v x : Int32}
  {t : Ty}

namespace Holds

/-! ### Objects -/

/-- The layout of an object is one of a class of the program. -/
theorem object_layout (h : w.Holds s₀ t₀ b Q k lim H s) {B : Block} (hB : B ∈ H.blocks)
    {l : ClassLayout} (hkind : B.kind = .object l) : l ∈ w.program.classes.layouts := by
  obtain ⟨t, -, hgets⟩ := h.heap.gets B hB
  have hwanted := hgets.wanted
  rw [hkind] at hwanted
  cases hwanted with
  | object _ _ hl _ _ => exact (ClassTable.get?_mem hl).1

/-- A positive word of an object type is the address of an object. -/
theorem exists_object (h : w.Holds s₀ t₀ b Q k lim H s) {c : String}
    (hv : w.program.Suits H.blocks v (.object c)) (hpos : 0 < v) :
    ∃ B ∈ H.blocks, v = Int32.ofNat B.address ∧ ∃ l, B.kind = .object l ∧
      l ∈ w.program.classes.layouts ∧ w.program.classes.Below l.name c := by
  obtain rfl | ⟨B, hB, hv, l, hkind, hbelow⟩ := hv
  · exact absurd hpos (by decide)
  · exact ⟨B, hB, hv, l, hkind, h.object_layout hB hkind, hbelow⟩

/-- The place of a field in an object of a class below the one that it was looked up in. -/
theorem field_place (h : w.Holds s₀ t₀ b Q k lim H s) {l lc : ClassLayout}
    (hl : l ∈ w.program.classes.layouts) {c x : String}
    (hbelow : w.program.classes.Below l.name c) (hc : w.program.classes.get? c = some lc)
    {j : Nat} {f : FieldLayout} (hf : lc.field? x = some (j, f)) : l.fields[j]? = some f := by
  obtain ⟨p, o, hw⟩ := h.compiled
  have hget : w.program.classes.get? l.name = some l :=
    hw.checked.laid.get?_eq_some.2 ⟨hl, rfl⟩
  have hfield := (hbelow.inherits hw.checked.laid hget hc).field? hf
  simp only [ClassLayout.field?, Option.bind_eq_bind, Option.bind_eq_some_iff] at hfield
  obtain ⟨i, -, g, hg, heq⟩ := hfield
  cases heq
  exact hg

/-! ### Calls -/

/-- A call of a function by name, behind its arguments. -/
theorem callFunction (h : w.Holds s₀ t₀ b Q k lim H s) (hsup : ∀ m < n, w.Supplies s₀ m)
    (hout : w.Outside b) (hp : w.Past b) {id : FunId} {f : Function} {us : List VarId}
    {b₁ b₂ : Nat} (hf : t₀.functions[id.index]? = some f)
    (hcaptures : (f.parent = none ∧ us = []) ∨ ∃ l outer, b.levels = l :: outer ∧
      f.parent = some l.id ∧
      List.Forall₂ ((t₀.facts w.program.classes).Passes b.levels) us f.captures)
    (hcells : CodeAt (w.names b) b.code (us.map fun v => .localGet (w.program.var v).name) b₁ b₂)
    (hcall : CodeAt (w.names b) b.code [.call (w.program.function id).emitted] b₂ a')
    (hlim : a' ≤ lim) (hxs : List.Forall₂ (w.program.Suits H.blocks) xs f.paramTypes)
    (hgo : w.Gives s₀ b Q R n m H s a' S f.ret) :
    w.Goes s₀ Q R n H (s.on b₁ (xs.reverse ++ S)) := by
  obtain ⟨p, o, hw⟩ := h.compiled
  obtain ⟨hop, -, rfl⟩ := codeAt_singleton.1 hcall
  have hop' : b.code[b₂]? = some (.call (w.module.index f.emitted)) := by
    rw [← Emit.function_eq hw.checked hf]
    exact hop
  have hpasses : ∃ ks, ks = f.captures ∧ List.Forall₂ (fun u e => (u ∈ b.vars ∧
      (w.program.var u).isIndirect = true) ∧ ∀ x, w.CellOf H.blocks x u →
        w.CellOf H.blocks x e.inner) us ks := by
    obtain ⟨hparent, rfl⟩ | ⟨l, outer, -, hparent, hpass⟩ := hcaptures
    · exact ⟨[], (hw.checked.nest.state.orphans id f hf hparent).symm, .nil⟩
    · refine ⟨_, rfl, List.forall₂_iff_get.2 ⟨hpass.length_eq, fun j hj hj' => ?_⟩⟩
      have hpassed := (List.forall₂_iff_get.1 hpass).2 j hj hj'
      have hmem := List.get_mem f.captures ⟨j, hj'⟩
      obtain ⟨-, hind⟩ := Emit.cell_of_passes hw.checked hf hparent hmem hpassed
      obtain ⟨⟨r, hr, -, hg⟩, hown, -, hhome⟩ := hpassed
      obtain ⟨outer', d, -, hfok⟩ := hw.checked.exists_definition hf hparent
      obtain ⟨⟨q, hq, -, hkind, -⟩, -⟩ := hfok.captures _ hmem
      have hqg : q.isGlobal = false := by simp [Variable.isGlobal, hkind]
      refine ⟨⟨h.body.own _ _ hown, hind⟩, fun x hx => ?_⟩
      obtain ⟨B, hB, u, hu, hkindB, hhome', hty⟩ := hx
      have hty' := hw.checked.typeOf_home hr hg hq hqg hhome
      simp only [State.facts, hw.checked.vars_eq] at hhome
      exact ⟨B, hB, u, hu, hkindB, hhome'.trans hhome, hty.trans hty'⟩
  obtain ⟨ks, rfl, hks⟩ := hpasses
  refine h.loadCells hp hcells (by omega) (fun u hu => ?_) fun cs hcs => ?_
  · obtain ⟨e, -, hu, -⟩ := exists_of_forall₂ hks hu
    exact hu
  · rw [← List.append_assoc, ← List.reverse_append]
    refine h.invoke hsup hout (by omega) (.inl hp) hf hop' hxs ?_ fun H' u v hm hv => hgo H' _ v hm hv
    refine List.forall₂_iff_get.2 ⟨hcs.length_eq.trans hks.length_eq, fun j hj hj' => ?_⟩
    have hju : j < us.length := hcs.length_eq ▸ hj
    exact ((List.forall₂_iff_get.1 hks).2 j hju hj').2 _ ((List.forall₂_iff_get.1 hcs).2 j hj hju)

/-- A call of a method, behind its receiver and its arguments. -/
theorem callMethod (h : w.Holds s₀ t₀ b Q k lim H s) (hsup : ∀ m < n, w.Supplies s₀ m)
    (hout : w.Outside b) (hp : w.Past b) {c x : String} {lc : ClassLayout}
    (hc : w.program.classes.get? c = some lc) {slot : Nat} {e : MethodEntry}
    (hmethod : lc.method? x = some (slot, e)) {id : FunId} {f : Function}
    (hid : (t₀.facts w.program.classes).methodId? c x = some id)
    (hf : t₀.functions[id.index]? = some f) {y : String}
    (hcode : CodeAt (w.names b) b.code [.localGet y, .load 0, .const (Emit.word slot),
      .binary .add, .callIndirect (Code.signatureName (xs.length + 1))] a a') (hlim : a' ≤ lim)
    (hy : s.thread.frame.locals[(w.names b).slot y]? = some v)
    (hv : w.program.Suits H.blocks v (.object c)) (hpos : 0 < v)
    (hxs : List.Forall₂ (w.program.Suits H.blocks) xs (f.paramTypes.drop 1))
    (hgo : w.Gives s₀ b Q R n m H s a' S f.ret) :
    w.Goes s₀ Q R n H (s.on a (xs.reverse ++ v :: S)) := by
  obtain ⟨p, o, hw⟩ := h.compiled
  obtain ⟨hop₁, -, hcode⟩ := codeAt_cons.1 hcode
  obtain ⟨hop₂, -, hcode⟩ := codeAt_cons.1 hcode
  obtain ⟨hop₃, -, hcode⟩ := codeAt_cons.1 hcode
  obtain ⟨hop₄, -, hcode⟩ := codeAt_cons.1 hcode
  obtain ⟨hop₅, -, rfl⟩ := codeAt_singleton.1 hcode
  obtain ⟨B, hB, rfl, l, hkind, hl, hbelow⟩ := h.exists_object hv hpos
  obtain ⟨hlt, j, g, owner, ts, hg, htable, hover, hts, hcaptures, howner⟩ :=
    hw.dispatched hl hbelow hc hmethod hid hf
  have hcount : xs.length + 1 = f.totalArity := by
    obtain ⟨harity, hpos⟩ := hw.method_arity hid hf
    have hlen := hxs.length_eq
    rw [List.length_drop] at hlen
    omega
  have harity : (w.names b).arity (Code.signatureName (xs.length + 1)) = xs.length + 1 := by
    rw [hcount]
    exact hw.arity_record hf b.func
  have hop' : b.code[a + 4]? = some (.callIndirect (Int32.ofNat B.address :: xs).length) :=
    hop₅.trans (congrArg (some ∘ Op.callIndirect) harity)
  refine h.localGet (by omega) hop₁ hy ?_
  refine h.loadBlock (by omega) hB (j := 0) (by rw [hkind]; exact Nat.succ_pos _) hop₂
    fun u hu => ?_
  rw [hkind] at hu
  obtain rfl : u = Emit.word l.vtableBase := hu
  refine h.const (by omega) hop₃ ?_
  refine h.binary (by omega) hop₄ fun z hz => ?_
  obtain rfl : Int32.ofNat (l.vtableBase + slot) = z := by
    cases hz
    exact Int32.ofNat_add ..
  have hstack : xs.reverse ++ Int32.ofNat B.address :: S
      = (Int32.ofNat B.address :: xs).reverse ++ S := by
    rw [List.reverse_cons, List.append_assoc]
    rfl
  rw [hstack]
  refine h.invokeThrough hsup hout (by omega) (.inl hp) (Nat.lt_trans hlt h.solid.table) hg htable
    hcaptures hop' ?_ fun H' u v hm hv => hgo H' _ v hm (hv.assign hw.checked.laid hover.ret)
  have hparams : f.paramTypes.drop 1 = ts := by
    rw [← hover.params, hts]
    rfl
  rw [hts]
  exact .cons (.inr ⟨B, hB, rfl, l, hkind, howner⟩) (hparams ▸ hxs)

/-! ### Expressions -/

mutual

/-- An expression leaves a word that suits its type. -/
theorem expr {s : Trace} {H : Ledger} {S : List Int32} {a a' : Nat}
    (h : w.Holds s₀ t₀ b Q k lim H s) (hsup : ∀ m < n, w.Supplies s₀ m) (hp : w.Past b) {e : Expr}
    {t : Ty} {m m' : Nat} (hocc : Expr.OccursIn b.source e)
    (he : (t₀.facts w.program.classes).ExprOk b.levels b.passes e t)
    (hat : Emit.ExprAt w.program (w.names b) b.code e m a m' a') (hstart : b.start ≤ a)
    (hlim : a' ≤ lim) (hgo : w.Gives s₀ b Q R n m H s a' S t) : w.Goes s₀ Q R n H (s.on a S) := by
  obtain ⟨p, o, hw⟩ := h.compiled
  have hout := h.outside hocc.source_ne_nil
  cases e with
  | literal i v =>
    simp only [ExprOk] at he
    obtain ⟨-, rfl⟩ := he
    obtain ⟨hcode, -⟩ := hat
    obtain ⟨hop, -, rfl⟩ := codeAt_singleton.1 hcode
    exact h.const (by omega) hop (hgo H s _ (h.refl m) (CheckedProgram.suits_word (.inl rfl)))
  | name i x v =>
    simp only [ExprOk] at he
    obtain ⟨-, u, rfl, hreach, -, rfl⟩ := he
    obtain ⟨u', ⟨⟩, hcode, -⟩ := hat
    refine h.loadVar hp hreach hcode hlim fun v hv => hgo H s v (h.refl m) ?_
    have hty : w.program.typeOf u = ((t₀.facts w.program.classes).vars.get u).ty.ty := by
      rw [CheckedProgram.typeOf, CheckedProgram.var, ← hw.checked.vars_eq]
      rfl
    exact hty ▸ hv
  | unary i op e =>
    have hpart := hocc.part List.mem_cons_self
    simp only [ExprOk] at he
    obtain ⟨-, rfl, he⟩ := he
    cases op with
    | neg =>
      obtain ⟨b₁, b₂, hzero, hat, hsub⟩ := hat
      obtain ⟨hop, -, rfl⟩ := codeAt_singleton.1 hzero
      obtain ⟨hop', -, rfl⟩ := codeAt_singleton.1 hsub
      have hle := Emit.exprAt_le hat
      refine h.const (by omega) hop ?_
      refine expr h hsup hp hpart he hat (by omega) (by omega) fun H₁ s₁ v hm₁ _ => ?_
      exact (h.follow hm₁).binary (by omega) hop' fun v _ => hgo H₁ s₁ v hm₁ trivial
    | not =>
      obtain ⟨b₁, hat, hnot⟩ := hat
      obtain ⟨hop, -, rfl⟩ := codeAt_singleton.1 hnot
      refine expr h hsup hp hpart he hat hstart (by omega) fun H₁ s₁ v hm₁ _ => ?_
      exact (h.follow hm₁).eqz (by omega) hop
        (hgo H₁ s₁ _ hm₁ (w.program.suits_truthWord _ _))
  | binary i op l r =>
    have hpartl := hocc.part List.mem_cons_self
    have hpartr := hocc.part (List.mem_cons_of_mem _ List.mem_cons_self)
    simp only [ExprOk] at he
    obtain ⟨-, tl, tr, hl, hr, ht⟩ := he
    obtain ⟨n₁, b₁, b₂, hatl, hatr, hcode⟩ := hat
    obtain ⟨hop, -, rfl⟩ := codeAt_singleton.1 hcode
    have hle := Emit.exprAt_le hatl
    have hle' := Emit.exprAt_le hatr
    refine expr h hsup hp hpartl hl hatl hstart (by omega) fun H₁ s₁ v hm₁ _ => ?_
    refine expr (h.follow hm₁) hsup hp hpartr hr hatr (by omega) (by omega)
      fun H₂ s₂ v' hm₂ _ => ?_
    refine ((h.follow hm₁).follow hm₂).binary (by omega) hop fun v hv => ?_
    exact hgo H₂ s₂ v (hm₁.trans hm₂ (Emit.exprAt_number_le hatl))
      (CheckedProgram.suits_binary ht hv)
  | call i callee args target =>
    cases target with
    | none => exact hat.elim
    | some target =>
      cases target with
      | function id us =>
        simp only [ExprOk] at he
        obtain ⟨-, f, hf, rfl, hargs, hcaptures⟩ := he
        obtain ⟨b₁, b₂, hats, hcells, hcode⟩ := hat
        have hle := Emit.codeAt_le hcells
        have hle' := Emit.codeAt_le hcode
        have hle'' := Emit.exprsAt_le hats
        refine exprs h hsup hp (fun _ he => hocc.part he) hargs hats hstart (by omega)
          fun H₁ s₁ xs hm₁ hxs => ?_
        exact (h.follow hm₁).callFunction hsup hout hp hf hcaptures hcells hcode hlim hxs
          (hgo.follow hm₁ (Nat.le_refl m))
      | construct y =>
        simp only [ExprOk] at he
        obtain ⟨-, -, -, -, rfl⟩ := he
        exact h.construct hsup hp hocc hat hstart hlim hgo
      | builtin f =>
        simp only [ExprOk] at he
        obtain ⟨-, rfl, harity, hall⟩ := he
        obtain ⟨ts, hargs⟩ := argsOk_of_allOk hall
        obtain ⟨b₁, is, hats, his, hcode⟩ := hat
        have hle := Emit.codeAt_le hcode
        refine exprs h hsup hp (fun _ he => hocc.part he) hargs hats hstart (by omega)
          fun H₁ s₁ xs hm₁ hxs => ?_
        refine (h.follow hm₁).builtin his hcode hlim ?_ (hgo.follow hm₁ (Nat.le_refl m))
        rw [List.length_reverse, hxs.length_eq, ← argsOk_length hargs, harity]
  | field i o f =>
    have hpart := hocc.part List.mem_cons_self
    simp only [ExprOk] at he
    obtain ⟨-, y, ly, j, d, ho, hly, hfield, rfl⟩ := he
    obtain ⟨l, j', d', b₁, hl, hfield', hato, hcode⟩ := hat
    cases hly.symm.trans (hl.get? ho)
    cases hfield.symm.trans hfield'
    obtain ⟨hop, -, hrest⟩ := codeAt_cons.1 hcode
    obtain ⟨hop', -, rfl⟩ := codeAt_singleton.1 hrest
    refine expr h hsup hp hpart ho hato hstart (by omega) fun H₁ s₁ v hm₁ hv => ?_
    have h₁ := h.follow hm₁
    refine h₁.guard (by omega) hop fun hpos => ?_
    obtain ⟨B, hB, rfl, lB, hkind, hlB, hbelow⟩ := h₁.exists_object hv hpos
    have hplace := h₁.field_place hlB hbelow hly hfield
    have hlt := (List.getElem?_eq_some_iff.1 hplace).1
    refine h₁.loadBlock (by omega) hB (j := j + 1) ?_ hop' fun u hu => ?_
    · rw [hkind]
      exact Nat.succ_lt_succ hlt
    · rw [hkind] at hu
      exact hgo H₁ s₁ u hm₁ (hu d hplace)
  | method i o x args =>
    have hpart := hocc.part List.mem_cons_self
    have hparts := fun e he => hocc.part (List.mem_cons_of_mem o (a := e) he)
    simp only [ExprOk] at he
    obtain ⟨-, y, id, f, ho, hid, hf, rfl, hargs⟩ := he
    obtain ⟨l, slot, e, n₁, b₁, b₂, b₃, hl, hmethod, hato, hguard, hats, hcode⟩ := hat
    have hl := hl.get? ho
    obtain ⟨hop₁, -, hrest⟩ := codeAt_cons.1 hguard
    obtain ⟨hop₂, hmem, hrest⟩ := codeAt_cons.1 hrest
    obtain ⟨hop₃, -, rfl⟩ := codeAt_singleton.1 hrest
    have hle := Emit.exprAt_le hato
    have hle' := Emit.exprsAt_le hats
    have hle'' := Emit.codeAt_le hcode
    have hnumber := Emit.exprAt_number_le hato
    refine expr h hsup hp hpart ho hato hstart (by omega) fun H₁ s₁ v hm₁ hv => ?_
    have h₁ := h.follow hm₁
    refine h₁.guard (by omega) hop₁ fun hpos => ?_
    refine h₁.setMade (m := n₁)
      (Emit.toList_append_repr (by decide : _ = '#' :: ['r', 'e', 'c', 'v']) n₁)
      hmem (by omega) hop₂ (fun j hj heq => absurd (receiverName_inj heq) (Nat.ne_of_lt hj))
      fun s₂ hm₂ _ hrecv => ?_
    have h₂ := h₁.follow hm₂
    refine h₂.localGet (by omega) hop₃ hrecv ?_
    refine exprs h₂ hsup hp hparts hargs hats (by omega) (by omega) fun H₃ s₃ xs hm₃ hxs => ?_
    have h₃ := h₂.follow hm₃
    have hrecv₃ : s₃.thread.frame.locals[(w.names b).slot (Emit.receiverName n₁)]? = some v :=
      (hm₃.temps n₁ (Nat.lt_succ_self n₁) hmem).trans hrecv
    have hcount : args.length = xs.length := (argsOk_length hargs).trans hxs.length_eq.symm
    rw [hcount] at hcode
    refine h₃.callMethod (m := m) hsup hout hp hl hmethod hid hf hcode hlim hrecv₃
      (hv.mono (hm₂.trans hm₃ (Nat.le_succ n₁)).sub.blocks) hpos hxs ?_
    exact hgo.follow ((hm₁.trans hm₂ hnumber).trans hm₃ (Nat.le_succ_of_le hnumber)) (Nat.le_refl m)

/-- Arguments leave words that suit the types of the parameters. -/
theorem exprs {s : Trace} {H : Ledger} {S : List Int32} {a a' : Nat}
    (h : w.Holds s₀ t₀ b Q k lim H s) (hsup : ∀ m < n, w.Supplies s₀ m) (hp : w.Past b)
    {es : List Expr} {ts : List Ty} {m m' : Nat} (hocc : ∀ e ∈ es, Expr.OccursIn b.source e)
    (hes : (t₀.facts w.program.classes).ArgsOk b.levels b.passes es ts)
    (hat : Emit.ExprsAt w.program (w.names b) b.code es m a m' a') (hstart : b.start ≤ a)
    (hlim : a' ≤ lim)
    (hu : ∀ H' s' xs, w.Moves s₀ b m H s H' s' →
      List.Forall₂ (w.program.Suits H'.blocks) xs ts →
      w.Goes s₀ Q R n H' (s'.on a' (xs.reverse ++ S))) : w.Goes s₀ Q R n H (s.on a S) := by
  obtain ⟨p, o, hw⟩ := h.compiled
  cases es with
  | nil =>
    cases ts with
    | nil =>
      obtain ⟨rfl, -⟩ := hat
      exact hu H s [] (h.refl m) .nil
    | cons t ts => simp only [ArgsOk] at hes
  | cons e es =>
    cases ts with
    | nil => simp only [ArgsOk] at hes
    | cons t ts =>
      simp only [ArgsOk] at hes
      obtain ⟨⟨t', he, ht⟩, hes⟩ := hes
      obtain ⟨n₁, b₁, hate, hat⟩ := hat
      obtain ⟨hpart, hparts⟩ := List.forall_mem_cons.1 hocc
      have hle := Emit.exprAt_le hate
      have hle' := Emit.exprsAt_le hat
      refine expr h hsup hp hpart he hate hstart (by omega) fun H₁ s₁ v hm₁ hv => ?_
      refine exprs (h.follow hm₁) hsup hp hparts hes hat (by omega) hlim fun H₂ s₂ xs hm₂ hxs => ?_
      have hv' := (hv.assign hw.checked.laid ht).mono hm₂.sub.blocks
      have hall := hu H₂ s₂ (v :: xs) (hm₁.trans hm₂ (Emit.exprAt_number_le hate)) (.cons hv' hxs)
      rwa [List.reverse_cons, List.append_assoc] at hall

end

end Holds

end Setting

end ObjLang
