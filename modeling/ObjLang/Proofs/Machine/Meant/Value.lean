import ObjLang.Proofs.Machine.Meant.Object

/-!
# ObjLang.Proofs.Machine.Meant.Value — values of expressions

The code of a checked expression leaves the word that stands for the value of the expression, or
traps as the expression does.
-/

namespace ObjLang

open Check Check.Facts

/-- Arguments that have some property are of types of their own that have it. -/
theorem Check.Facts.argsOk_own {F : Facts} {lv : List Level} {passes : String → Bool}
    {good : Ty → Prop} {es : List Expr} (h : F.AllOk lv passes good es) :
    ∃ ts, F.ArgsOk lv passes es ts ∧
      List.Forall₂ (fun e t => e.ty = some t ∧ good t) es ts := by
  induction es with
  | nil => exact ⟨[], trivial, .nil⟩
  | cons e es ih =>
    obtain ⟨⟨t, ht, hgood⟩, hes⟩ := h
    obtain ⟨ts, hts, hall⟩ := ih hes
    exact ⟨t :: ts, ⟨⟨t, ht, F.classes.isAssignable_refl t⟩, hts⟩,
      .cons ⟨Emit.ty_of_exprOk ht, hgood⟩ hall⟩

/-- A field that is found by its name has the name. -/
theorem ClassLayout.Indexed.field?_name {l : ClassLayout} (h : l.Indexed) {x : String} {j : Nat}
    {f : FieldLayout} (hf : l.field? x = some (j, f)) : f.name = x := by
  simp only [ClassLayout.field?, Option.bind_eq_bind, Option.bind_eq_some_iff] at hf
  obtain ⟨i, hi, g, hg, heq⟩ := hf
  cases heq
  have hname := (h.fields x j).1 hi
  rw [List.getElem?_map] at hname
  rw [show l.fieldRows.list[j]? = some f from hg] at hname
  exact Option.some.inj hname

namespace Setting

variable {w : Setting} {s₀ : Trace} {t₀ : State} {b : Body} {fin : Outcome} {sc : CallChain}
  {n : Nat}

namespace Meant

/-- A field of an object. -/
theorem field {V : Scene} (h : w.Meant s₀ t₀ b sc V) {r : Nat} {B : Block} {l lc : ClassLayout}
    (hr : V.image.objects[r]? = some B) (hkind : B.kind = .object l) {c x : String}
    (hbelow : w.program.classes.Below l.name c) (hc : w.program.classes.get? c = some lc) {j : Nat}
    {f : FieldLayout} (hf : lc.field? x = some (j, f)) :
    B ∈ V.ledger.blocks ∧ j + 1 < B.kind.words ∧ l.fields[j]? = some f ∧ f.name = x ∧
      l ∈ w.program.classes.layouts := by
  obtain ⟨p, o, hw⟩ := h.compiled
  have hB := (h.mirrors.object r B hr).1
  have hl := h.holds.object_layout hB hkind
  have hplace := h.holds.field_place hl hbelow hc hf
  refine ⟨hB, ?_, hplace,
    (hw.checked.laid.indexed (ClassTable.get?_mem hc).1).field?_name hf, hl⟩
  rw [hkind]
  exact Nat.succ_lt_succ (List.getElem?_eq_some_iff.1 hplace).1

mutual

/-- An expression leaves the word that stands for its value. -/
theorem expr {V : Scene} {S : List Int32} {a a' : Nat} (h : w.Meant s₀ t₀ b sc V)
    (hper : w.Performs s₀ fin n) {e : Expr} {t : Ty} {m m' : Nat}
    (hocc : Expr.OccursIn b.source e)
    (he : (t₀.facts w.program.classes).ExprOk b.levels b.passes e t)
    (hat : Emit.ExprAt w.program (w.names b) b.code e m a m' a') (hstart : b.start ≤ a)
    {K : Value → Eval (Option Value)}
    (hlead : (Meaning.expr w.program (w.program.call n) sc e >>= K).Leads V.world
      (printed V.trace) fin)
    (hgo : w.Yields s₀ b sc fin m V a' S t K) : w.Ends s₀ fin V.ledger (V.trace.on a S) := by
  obtain ⟨p, o, hw⟩ := h.compiled
  have hout := h.holds.outside hocc.source_ne_nil
  cases e with
  | literal i v =>
    simp only [ExprOk] at he
    obtain ⟨-, rfl⟩ := he
    obtain ⟨hcode, -⟩ := hat
    obtain ⟨hop, -, rfl⟩ := codeAt_singleton.1 hcode
    rw [Meaning.expr, pure_bind] at hlead
    exact .const h.holds hop (hgo V _ _ (h.refl m) (Value.stands_fits (.inl rfl)) hlead)
  | name i x v =>
    simp only [ExprOk] at he
    obtain ⟨-, u, rfl, hreach, -, rfl⟩ := he
    obtain ⟨u', ⟨⟩, hcode, -⟩ := hat
    simp only [Meaning.expr, bind_assoc, Eval.leads_known, Option.bind_some, Eval.leads_read]
      at hlead
    obtain ⟨pl, hpl, hlead⟩ := hlead
    refine h.loadVar hreach hcode hpl fun x hx => hgo V _ x (h.refl m) ?_ hlead
    have hty : w.program.typeOf u = ((t₀.facts w.program.classes).vars.get u).ty.ty := by
      rw [CheckedProgram.typeOf, CheckedProgram.var, ← hw.checked.vars_eq]
      rfl
    exact hty ▸ hx
  | unary i op e =>
    have hpart := hocc.part List.mem_cons_self
    simp only [ExprOk] at he
    obtain ⟨-, rfl, he⟩ := he
    rw [Meaning.expr, bind_assoc] at hlead
    cases op with
    | neg =>
      obtain ⟨b₁, b₂, hzero, hat, hsub⟩ := hat
      obtain ⟨hop, -, rfl⟩ := codeAt_singleton.1 hzero
      obtain ⟨hop', -, rfl⟩ := codeAt_singleton.1 hsub
      refine .const h.holds hop ?_
      refine expr h hper hpart he hat (Nat.le_succ_of_le hstart) hlead fun V₁ v x ht₁ hv hK => ?_
      obtain rfl : v = .int x := hv
      simp only [Eval.leads_known, UnaryOp.apply, Option.some.injEq, exists_eq_left'] at hK
      refine .binary (h.follow ht₁).holds hop' rfl (hgo V₁ _ _ ht₁ ?_ hK)
      show Value.int (-x) = Value.int (0 - x)
      rw [Int32.zero_sub]
    | not =>
      obtain ⟨b₁, hat, hnot⟩ := hat
      obtain ⟨hop, -, rfl⟩ := codeAt_singleton.1 hnot
      refine expr h hper hpart he hat hstart hlead fun V₁ v x ht₁ hv hK => ?_
      obtain ⟨z, rfl, rfl⟩ := hv
      simp only [Eval.leads_known, UnaryOp.apply, Option.some.injEq, exists_eq_left'] at hK
      refine .eqz (h.follow ht₁).holds hop (hgo V₁ _ _ ht₁ ⟨!z, rfl, ?_⟩ hK)
      cases z <;> rfl
  | binary i op l r =>
    have hpartl := hocc.part List.mem_cons_self
    have hpartr := hocc.part (List.mem_cons_of_mem _ List.mem_cons_self)
    simp only [ExprOk] at he
    obtain ⟨-, tl, tr, hl, hr, ht⟩ := he
    obtain ⟨n₁, b₁, b₂, hatl, hatr, hcode⟩ := hat
    obtain ⟨hop, -, rfl⟩ := codeAt_singleton.1 hcode
    have hle := Emit.exprAt_le hatl
    simp only [Meaning.expr, bind_assoc] at hlead
    refine expr h hper hpartl hl hatl hstart hlead fun V₁ u x ht₁ hu hK₁ => ?_
    refine expr (h.follow ht₁) hper hpartr hr hatr (Nat.le_trans hstart hle) hK₁
      fun V₂ v y ht₂ hv hK₂ => ?_
    have h₂ := (h.follow ht₁).follow ht₂
    cases happly : op.apply u v with
    | none =>
      rw [happly] at hK₂
      exact absurd hK₂ Eval.not_leads_reply_none
    | some r =>
      rw [happly, Option.map_some] at hK₂
      obtain ⟨e, rfl, heval⟩ | ⟨z, k, rfl, heval, hz⟩ :=
        h₂.mirrors.binary h₂.heapOk h₂.solid ht (hu.mono ht₂.image) hv happly
      · rw [Eval.leads_reply_error, List.append_nil] at hK₂
        exact .binary_trap h₂.holds hop heval hK₂
      · rw [Eval.leads_reply_ok, List.append_nil] at hK₂
        exact .binary h₂.holds hop heval
          (hgo V₂ z k (ht₁.trans ht₂ (Emit.exprAt_number_le hatl)) hz hK₂)
  | call i callee args target =>
    cases target with
    | none => exact hat.elim
    | some target =>
      cases target with
      | function id us =>
        simp only [ExprOk] at he
        obtain ⟨-, f, hf, rfl, hargs, hcaptures⟩ := he
        obtain ⟨b₁, b₂, hats, hcells, hcode⟩ := hat
        rw [Meaning.expr, bind_assoc] at hlead
        refine exprs h hper (fun _ he => hocc.part he) hargs hats hstart hlead
          fun V₁ es ht₁ hes hK => ?_
        exact (h.follow ht₁).callFunction hper hout hf hcaptures hcells hcode hes hK
          (hgo.follow ht₁ (Nat.le_refl m))
      | construct y =>
        simp only [ExprOk] at he
        obtain ⟨-, -, -, -, rfl⟩ := he
        rw [Meaning.expr] at hlead
        exact h.construct hper hocc hat hstart hlead hgo
      | builtin f =>
        simp only [ExprOk] at he
        obtain ⟨-, rfl, harity, hall⟩ := he
        obtain ⟨ts, hargs, hown⟩ := argsOk_own hall
        obtain ⟨b₁, is, hats, his, hcode⟩ := hat
        rw [Meaning.expr, bind_assoc] at hlead
        refine exprs h hper (fun _ he => hocc.part he) hargs hats hstart hlead
          fun V₁ es ht₁ hes hK => ?_
        exact (h.follow ht₁).builtin his hcode hown hes harity hK (hgo.follow ht₁ (Nat.le_refl m))
  | field i o f =>
    have hpart := hocc.part List.mem_cons_self
    simp only [ExprOk] at he
    obtain ⟨-, y, ly, j, d, ho, hly, hfield, rfl⟩ := he
    obtain ⟨l, j', d', b₁, hl, hfield', hato, hcode⟩ := hat
    cases hly.symm.trans (hl.get? ho)
    cases hfield.symm.trans hfield'
    obtain ⟨hop, -, hrest⟩ := codeAt_cons.1 hcode
    obtain ⟨hop', -, rfl⟩ := codeAt_singleton.1 hrest
    simp only [Meaning.expr, bind_assoc] at hlead
    refine expr h hper hpart ho hato hstart hlead fun V₁ v x ht₁ hv hK => ?_
    have h₁ := h.follow ht₁
    refine h₁.guard hv hop hK fun r B lB hr hx hkind hbelow _ hK => ?_
    subst hx
    obtain ⟨hB, hlt, hplace, hname, -⟩ := h₁.field hr hkind hbelow hly hfield
    obtain ⟨-, l', ob, hkind', hob, -, hfields⟩ := h₁.mirrors.object r B hr
    cases hkind.symm.trans hkind'
    obtain ⟨u, hu, hstands⟩ := hfields j d hplace
    rw [Eval.leads_object] at hK
    obtain ⟨ob', hob', hK⟩ := hK
    cases hob.symm.trans hob'
    rw [Eval.leads_known, ← hname] at hK
    obtain ⟨u', hu', hK⟩ := hK
    cases hu.symm.trans hu'
    exact .loadBlock h₁.holds hB hlt hop' (hgo V₁ u _ ht₁ hstands hK)
  | method i o x args =>
    have hpart := hocc.part List.mem_cons_self
    have hparts := fun e he => hocc.part (List.mem_cons_of_mem o (a := e) he)
    simp only [ExprOk] at he
    obtain ⟨-, y, id, f, ho, hid, hf, rfl, hargs⟩ := he
    obtain ⟨l, slot, e, n₁, b₁, b₂, b₃, hl, hmethod, hato, hguard, hats, hcode⟩ := hat
    have hl := hl.get? ho
    obtain ⟨hop₁, -, hrest⟩ := codeAt_cons.1 hguard
    obtain ⟨hop₂, hmem, hrest⟩ := codeAt_cons.1 hrest
    obtain ⟨hop₃, -, rfl⟩ := codeAt_singleton.1 hrest
    have hle := Emit.exprAt_le hato
    have hnumber := Emit.exprAt_number_le hato
    simp only [Meaning.expr, bind_assoc] at hlead
    refine expr h hper hpart ho hato hstart hlead fun V₁ v z ht₁ hv hK => ?_
    have h₁ := h.follow ht₁
    refine h₁.guard hv hop₁ hK fun r B lB hr hz hkind hbelow _ hK => ?_
    subst hz
    refine h₁.setMade (m := n₁)
      (Emit.toList_append_repr (by decide : _ = '#' :: ['r', 'e', 'c', 'v']) n₁)
      hmem hop₂ (fun j hj heq => absurd (Holds.receiverName_inj heq) (Nat.ne_of_lt hj))
      fun s₂ hs₂ ht₂ hrecv => ?_
    have h₂ := h₁.follow ht₂
    have hp₂ : printed s₂ = printed V₁.trace := by rw [hs₂]; rfl
    refine .localGet h₂.holds hop₃ hrecv ?_
    refine exprs h₂ hper hparts hargs hats (by omega) (hp₂.symm ▸ hK) fun V₃ es ht₃ hes hK => ?_
    have h₃ := h₂.follow ht₃
    have hrecv₃ : V₃.trace.thread.frame.locals[(w.names b).slot (Emit.receiverName n₁)]?
        = some (Int32.ofNat B.address) :=
      (ht₃.moves.temps n₁ (Nat.lt_succ_self n₁) hmem).trans hrecv
    have hcount : args.length = es.length := (argsOk_length hargs).trans hes.length_eq.symm
    rw [hcount] at hcode
    refine h₃.callMethod (m := m) hper hout hl hmethod hid hf hcode
      (ht₃.image.objects r B (ht₂.image.objects r B hr)) hkind hbelow hrecv₃ hes hK ?_
    exact hgo.follow ((ht₁.trans ht₂ hnumber).trans ht₃ (Nat.le_succ_of_le hnumber)) (Nat.le_refl m)

/-- Arguments leave the words that stand for their values. -/
theorem exprs {V : Scene} {S : List Int32} {a a' : Nat} (h : w.Meant s₀ t₀ b sc V)
    (hper : w.Performs s₀ fin n) {es : List Expr} {ts : List Ty} {m m' : Nat}
    (hocc : ∀ e ∈ es, Expr.OccursIn b.source e)
    (hes : (t₀.facts w.program.classes).ArgsOk b.levels b.passes es ts)
    (hat : Emit.ExprsAt w.program (w.names b) b.code es m a m' a') (hstart : b.start ≤ a)
    {K : List Value → Eval (Option Value)}
    (hlead : (Meaning.exprs w.program (w.program.call n) sc es >>= K).Leads V.world
      (printed V.trace) fin)
    (hu : ∀ V' vs, w.Turns s₀ b sc m V V' →
      List.Forall₂ (fun e t => e.1.Stands w.program V'.image e.2 t) vs ts →
      (K (vs.map Prod.fst)).Leads V'.world (printed V'.trace) fin →
      w.Ends s₀ fin V'.ledger (V'.trace.on a' ((vs.map Prod.snd).reverse ++ S))) :
    w.Ends s₀ fin V.ledger (V.trace.on a S) := by
  obtain ⟨p, o, hw⟩ := h.compiled
  cases es with
  | nil =>
    cases ts with
    | nil =>
      obtain ⟨rfl, -⟩ := hat
      rw [Meaning.exprs, pure_bind] at hlead
      exact hu V [] (h.refl m) .nil hlead
    | cons t ts => simp only [ArgsOk] at hes
  | cons e es =>
    cases ts with
    | nil => simp only [ArgsOk] at hes
    | cons t ts =>
      simp only [ArgsOk] at hes
      obtain ⟨⟨t', he, ht⟩, hes⟩ := hes
      obtain ⟨n₁, b₁, hate, hat⟩ := hat
      obtain ⟨hpart, hparts⟩ := List.forall_mem_cons.1 hocc
      have hle := Emit.exprAt_le hate
      simp only [Meaning.exprs, bind_assoc, pure_bind] at hlead
      refine expr h hper hpart he hate hstart hlead fun V₁ v x ht₁ hv hK => ?_
      refine exprs (h.follow ht₁) hper hparts hes hat (Nat.le_trans hstart hle) hK
        fun V₂ vs ht₂ hvs hK => ?_
      have hv' := (hv.assign hw.checked.laid ht).mono ht₂.image
      have hall := hu V₂ ((v, x) :: vs) (ht₁.trans ht₂ (Emit.exprAt_number_le hate))
        (.cons hv' hvs) hK
      rwa [List.map_cons, List.reverse_cons, List.append_assoc] at hall

end

end Meant

end Setting

end ObjLang
