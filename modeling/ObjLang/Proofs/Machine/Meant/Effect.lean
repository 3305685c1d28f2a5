import ObjLang.Proofs.Machine.Meant.Value
import ObjLang.Proofs.Machine.Typed.Effect

/-!
# ObjLang.Proofs.Machine.Meant.Effect — statements that do what they mean

The code of a statement changes the store as the statement changes the world, and goes on where the
statement does: behind it, or at a `return` with the word that stands for the value.
-/

namespace ObjLang

open Check Check.Facts

-- Memories are compared by the laws of their words, never byte by byte.
attribute [local irreducible] Memory.setWord

namespace Setting

/-- A run comes to an end that it may come to once the call comes to a position. -/
def Proceeds (w : Setting) (s₀ : Trace) (b : Body) (sc : CallChain) (fin : Outcome) (V : Scene)
    (a : Nat) (S : List Int32) (K : Eval (Option Value)) : Prop :=
  ∀ V', w.Turns s₀ b sc 0 V V' → K.Leads V'.world (printed V'.trace) fin →
    w.Ends s₀ fin V'.ledger (V'.trace.on a S)

/-- A run comes to an end that it may come to once the call comes to a `return`. -/
def Replies (w : Setting) (s₀ : Trace) (b : Body) (sc : CallChain) (fin : Outcome) (V : Scene)
    (S : List Int32) (K : Value → Eval (Option Value)) : Prop :=
  ∀ t, b.ret = some t → ∀ V' v x i, w.Turns s₀ b sc 0 V V' → v.Stands w.program V'.image x t →
    b.code[i]? = some .ret → (K v).Leads V'.world (printed V'.trace) fin →
    w.Ends s₀ fin V'.ledger (V'.trace.on i (x :: S))

variable {w : Setting} {s₀ : Trace} {t₀ : State} {b : Body} {fin : Outcome} {sc : CallChain}
  {V V' : Scene} {n m a a' : Nat} {S : List Int32} {x : Int32} {v : Value}

theorem Proceeds.follow {K : Eval (Option Value)} (h : w.Proceeds s₀ b sc fin V a S K)
    (ht : w.Turns s₀ b sc m V V') : w.Proceeds s₀ b sc fin V' a S K :=
  fun _ ht' hK => h _ ((ht.le (Nat.zero_le m)).trans ht' (Nat.le_refl 0)) hK

theorem Replies.follow {K : Value → Eval (Option Value)} (h : w.Replies s₀ b sc fin V S K)
    (ht : w.Turns s₀ b sc m V V') : w.Replies s₀ b sc fin V' S K :=
  fun t hret _ v x i ht' hv hop hK =>
    h t hret _ v x i ((ht.le (Nat.zero_le m)).trans ht' (Nat.le_refl 0)) hv hop hK

namespace Meant

/-! ### Assignments -/

section

variable (h : w.Meant s₀ t₀ b sc V)

include h

/-- The call whose variables a write may change. -/
theorem spares_write {u : VarId} {pl : Place} (hpl : w.program.place? sc u = some pl)
    (hu : u ∈ b.vars) (v : Value) :
    V.world.Spares w.program sc.own (V.world.write pl v) := by
  obtain ⟨x, -, hok⟩ := h.vars u hu
  refine .write ?_
  split at hok
  · obtain ⟨pl', _, _, hpl', -, href, -⟩ := hok
    cases hpl.symm.trans hpl'
    exact .inr (.inr href)
  · cases hpl.symm.trans hok.1
    exact .inl rfl

/-- A variable of the module gets a value. -/
theorem setGlobal {d : VarDef} (hd : d ∈ w.program.program.vars) {u : VarId}
    (hu : d.binding = some u)
    (hcode : CodeAt (w.names b) b.code [.globalSet d.var.name.name] a a')
    (hv : v.Stands w.program V.image x (w.program.typeOf u)) {K : Eval (Option Value)}
    (hlead : K.Leads (V.world.write ⟨none, u⟩ v) (printed V.trace) fin)
    (hgo : w.Proceeds s₀ b sc fin V a' S K) : w.Ends s₀ fin V.ledger (V.trace.on a (x :: S)) := by
  obtain ⟨p, o, hw⟩ := h.compiled
  obtain ⟨hop, -, rfl⟩ := codeAt_singleton.1 hcode
  have hne := hw.global_ne hd b.func
  have hunique : ∀ d' ∈ w.program.program.vars,
      w.globalIndex d'.var.name.name = w.globalIndex d.var.name.name → d'.binding = some u :=
    fun d' hd' heq => (hw.global_binding hd' hd b.func heq).trans hu
  have hsame : ∀ d' ∈ w.program.program.vars, d'.binding = some u →
      w.globalIndex d'.var.name.name = w.globalIndex d.var.name.name := by
    intro d' hd' hu'
    obtain ⟨u₁, r, -, hu₁, -, hr, hname, -⟩ := hw.checked.globals d hd
    obtain ⟨u₂, r', -, hu₂, -, hr', hname', -⟩ := hw.checked.globals d' hd'
    cases hu.symm.trans hu₁
    cases hu'.symm.trans hu₂
    cases hr.symm.trans hr'
    rw [← hname, ← hname']
  obtain ⟨y, hy, -⟩ := h.mirrors.global d hd u hu
  have hlt : w.globalIndex d.var.name.name < V.trace.thread.store.globals.size :=
    (Array.getElem?_eq_some_iff.1 hy).1
  refine .globalSet h.holds hop hne hlt ?_
  refine hgo ⟨V.ledger, _, V.image, V.world.write ⟨none, u⟩ v⟩ ?_ hlead
  have hheap := h.heapOk.setGlobal hne (x := x) fun d' hd' heq u' hu' => by
    have hbinding := hunique d' hd' heq
    rw [hu'] at hbinding
    cases hbinding
    exact h.mirrors.suits hv
  refine ⟨h.holds.moves_store hheap 0, .refl _, .write (.inr (.inl rfl)),
    h.mirrors.setGlobal hu hunique hsame hv, fun y hy => ?_, rfl⟩
  refine (h.vars y hy).mono (.refl _) rfl fun hind => ?_
  obtain ⟨c, hown⟩ := (h.vars y hy).own_eq (h.holds.body.notGlobal y hy) hind
  rw [hown]
  exact World.write_module_call

/-- Only captured variables have cells. -/
theorem cell_refed {c q : Nat} {u : VarId} (hq : V.image.cell c u = some q) :
    (w.program.var u).refed = true := by
  obtain ⟨hB, -⟩ := h.mirrors.cell c u q hq
  obtain ⟨t, -, hgets⟩ := h.heapOk.gets _ hB
  have hwanted := hgets.wanted
  cases hwanted with
  | cell _ hv _ _ _ _ _ => exact (List.mem_filter.1 hv).2

/-- A variable of the function that has no cell gets a value. -/
theorem setOwn {u : VarId} (hu : u ∈ b.vars) (hind : (w.program.var u).isIndirect = false)
    (hcode : CodeAt (w.names b) b.code [.localSet (w.program.var u).name] a a') {pl : Place}
    (hpl : w.program.place? sc u = some pl)
    (hv : v.Stands w.program V.image x (w.program.typeOf u)) {K : Eval (Option Value)}
    (hlead : K.Leads (V.world.write pl v) (printed V.trace) fin)
    (hgo : w.Proceeds s₀ b sc fin V a' S K) : w.Ends s₀ fin V.ledger (V.trace.on a (x :: S)) := by
  obtain ⟨hop, hmem, rfl⟩ := codeAt_singleton.1 hcode
  have hslot := h.holds.body.slot u hu
  have hlt : w.program.slot u < V.trace.thread.frame.locals.size :=
    hslot ▸ h.locals _ hmem
  have hop' : b.code[a]? = some (.localSet (w.program.slot u)) :=
    hop.trans (congrArg (some ∘ Op.localSet) hslot)
  obtain rfl : pl = ⟨sc.own, u⟩ := by
    obtain ⟨y, -, hok⟩ := h.vars u hu
    rw [if_neg (by rw [hind]; exact Bool.false_ne_true)] at hok
    exact Option.some.inj (hpl.symm.trans hok.1)
  obtain ⟨c, hown⟩ := (h.vars u hu).own_eq (h.holds.body.notGlobal u hu) hind
  have hset : (V.trace.withLocal (w.program.slot u) x).thread.frame.locals[w.program.slot u]?
      = some x := Array.getElem?_setIfInBounds_self_of_lt hlt
  have hok : w.VarOk V.ledger.blocks (V.trace.withLocal (w.program.slot u) x).thread.frame u := by
    refine ⟨x, hset, ?_⟩
    rw [hind, if_neg Bool.false_ne_true]
    exact h.mirrors.suits hv
  refine .localSet h.holds hop' hlt
    (hgo ⟨V.ledger, _, V.image, V.world.write ⟨sc.own, u⟩ v⟩ ?_ hlead)
  refine ⟨h.holds.moves_slot hu (fun _ => hind) (.inl hok) fun _ => hok, .refl _,
    h.spares_write hpl hu v, ?_, fun y hy => ?_, Array.size_setIfInBounds⟩
  · refine h.mirrors.world rfl (Nat.le_refl _) (fun c' y q hq => ?_) fun y => ?_
    · refine World.write_of_ne fun heq => ?_
      have href := h.cell_refed hq
      obtain rfl : y = u := congrArg Place.var heq
      rw [h.plain y hu hind] at href
      cases href
    · rw [hown]
      exact World.write_call_module
  · by_cases heq : y = u
    · subst heq
      refine ⟨x, hset, ?_⟩
      rw [hind, if_neg Bool.false_ne_true, World.write_self]
      exact ⟨hpl, hv⟩
    · refine (h.vars y hy).mono (.refl _) (Array.getElem?_setIfInBounds_ne fun hsame =>
        heq (h.holds.body.inj y hy u hu hsame.symm)) fun _ => ?_
      exact World.write_of_ne fun hplace => heq (congrArg Place.var hplace)

/-- A variable with a cell gets a value. -/
theorem setCell {u : VarId} (hu : u ∈ b.vars) {pl : Place}
    (hpl : w.program.place? sc u = some pl)
    (hty : w.program.typeOf pl.var = w.program.typeOf u) {c q : Nat} (hc : pl.call = some c)
    (hq : V.image.cell c pl.var = some q)
    (hop : b.code[a]? = some (.store 0))
    (hv : v.Stands w.program V.image x (w.program.typeOf u)) {K : Eval (Option Value)}
    (hlead : K.Leads (V.world.write pl v) (printed V.trace) fin)
    (hgo : w.Proceeds s₀ b sc fin V (a + 1) S K) :
    w.Ends s₀ fin V.ledger (V.trace.on a (x :: Int32.ofNat q :: S)) := by
  obtain ⟨hB, -⟩ := h.mirrors.cell c pl.var q hq
  have hplace : pl = ⟨some c, pl.var⟩ := by rw [← hc]
  have hpos : 0 < (BlockKind.cell pl.var).words := Nat.one_pos
  have htakes : (BlockKind.cell pl.var).Takes w.program V.ledger.blocks 0 x := by
    show w.program.Suits V.ledger.blocks x (w.program.typeOf pl.var)
    rw [hty]
    exact h.mirrors.suits hv
  refine .storeBlock h.holds hB (j := 0) hpos hop
    (hgo ⟨V.ledger, _, V.image, V.world.write pl v⟩ ?_ hlead)
  refine ⟨h.holds.moves_store (h.heapOk.write hB hpos htakes) 0, .refl _,
    h.spares_write hpl hu v, ?_, fun y hy => ?_, rfl⟩
  · rw [hplace]
    exact h.mirrors.setCell h.heapOk.apart hq (hty ▸ hv)
  · refine (h.vars y hy).mono (.refl _) rfl fun hind => World.write_of_ne fun heq => ?_
    have href := h.cell_refed hq
    have hvar : y = pl.var := congrArg Place.var heq
    rw [← hvar, h.plain y hy hind] at href
    cases href

/-- A field of an object gets a value. -/
theorem setField {r : Nat} {B : Block} {l lc : ClassLayout} (hr : V.image.objects[r]? = some B)
    (hkind : B.kind = .object l) {c y : String} (hbelow : w.program.classes.Below l.name c)
    (hc : w.program.classes.get? c = some lc) {j : Nat} {f : FieldLayout}
    (hf : lc.field? y = some (j, f)) (hop : b.code[a]? = some (.store (4 * (j + 1))))
    (hv : v.Stands w.program V.image x f.ty) {K : Eval (Option Value)}
    (hlead : K.Leads (V.world.setField r y v) (printed V.trace) fin)
    (hgo : w.Proceeds s₀ b sc fin V (a + 1) S K) :
    w.Ends s₀ fin V.ledger (V.trace.on a (x :: Int32.ofNat B.address :: S)) := by
  obtain ⟨p, o, hw⟩ := h.compiled
  obtain ⟨hB, hlt, hplace, rfl, hl⟩ := h.field hr hkind hbelow hc hf
  have htakes : B.kind.Takes w.program V.ledger.blocks (j + 1) x := by
    rw [hkind]
    intro f' hf'
    cases hplace.symm.trans hf'
    exact h.mirrors.suits hv
  refine .storeBlock h.holds hB hlt hop
    (hgo ⟨V.ledger, _, V.image, V.world.setField r f.name v⟩ ?_ hlead)
  exact ⟨h.holds.moves_store (h.heapOk.write hB hlt htakes) 0, .refl _,
    ⟨Nat.le_refl _, fun _ _ _ _ _ => rfl⟩,
    h.mirrors.setField h.heapOk.apart hr hkind hplace (hw.checked.field_names_nodup hl) hv,
    fun y hy => (h.vars y hy).mono (.refl _) rfl fun _ => rfl, rfl⟩

theorem assign (hper : w.Performs s₀ fin n) {target : Target} {value : Expr} {span : Span}
    {l l' : Nat} (hocc : Stmt.OccursIn b.source (.assign target value span))
    (hok : (t₀.facts w.program.classes).StmtOk b.levels b.passes b.ret (.assign target value span))
    (hat : Emit.AssignAt w.program (w.names b) b.code value target l a l' a')
    (hstart : b.start ≤ a) {K : Unit → Eval (Option Value)}
    (hlead : (Meaning.assign w.program (w.program.call n) sc value target >>= K).Leads V.world
      (printed V.trace) fin)
    (hgo : w.Proceeds s₀ b sc fin V a' S (K ())) : w.Ends s₀ fin V.ledger (V.trace.on a S) := by
  obtain ⟨p, o, hw⟩ := h.compiled
  have hvalue : Expr.OccursIn b.source value :=
    .here hocc (List.mem_append_right _ List.mem_cons_self)
  simp only [StmtOk] at hok
  obtain ⟨t, t', he, htarget, hassign⟩ := hok
  cases target with
  | name y u =>
    obtain ⟨u, r, rfl, hr, hreach, -, rfl, -⟩ := htarget
    have hty : w.program.typeOf u = r.ty.ty := hw.checked.typeOf_eq hr
    obtain ⟨_, b₁, b₂, ⟨⟩, hfirst, hate, hlast⟩ := hat
    simp only [Meaning.assign, bind_assoc, Eval.leads_known, Option.bind_some] at hlead
    obtain ⟨pl, hpl, hlead⟩ := hlead
    obtain ⟨hg, d, hd, hname, hbinding⟩ | ⟨hg, hmem⟩ := h.holds.reaches_cases hreach
    · simp only [hg, Bool.true_eq_false, false_and, if_false, if_true] at hfirst hlast
      obtain rfl := codeAt_nil.1 hfirst
      obtain rfl : pl = ⟨none, u⟩ := by
        rw [CheckedProgram.place?, if_pos hg] at hpl
        exact (Option.some.inj hpl).symm
      refine h.expr hper hvalue he hate hstart hlead fun V₁ v x ht₁ hv hK => ?_
      rw [Eval.leads_write] at hK
      exact (h.follow ht₁).setGlobal hd hbinding (hname ▸ hlast)
        (hty ▸ hv.assign hw.checked.laid hassign) hK (hgo.follow ht₁)
    · simp only [hg, true_and, Bool.false_eq_true, if_false] at hfirst hlast
      cases hind : (w.program.var u).isIndirect with
      | true =>
        simp only [hind, if_true] at hfirst hlast
        obtain ⟨hop, -, rfl⟩ := codeAt_singleton.1 hfirst
        obtain ⟨hop', -, rfl⟩ := codeAt_singleton.1 hlast
        obtain ⟨z, hz, hcell⟩ := h.vars u hmem
        rw [if_pos hind] at hcell
        obtain ⟨pl', c, q, hpl', hty', -, hc, hq, rfl⟩ := hcell
        cases hpl.symm.trans hpl'
        refine .localGet h.holds hop ((h.holds.body.slot u hmem).symm ▸ hz) ?_
        refine h.expr hper hvalue he hate (Nat.le_succ_of_le hstart) hlead
          fun V₁ v x ht₁ hv hK => ?_
        rw [Eval.leads_write] at hK
        exact (h.follow ht₁).setCell hmem hpl hty' hc (ht₁.image.cell c pl.var q hq) hop'
          (hty ▸ hv.assign hw.checked.laid hassign) hK (hgo.follow ht₁)
      | false =>
        simp only [hind, Bool.false_eq_true, if_false] at hfirst hlast
        obtain rfl := codeAt_nil.1 hfirst
        refine h.expr hper hvalue he hate hstart hlead fun V₁ v x ht₁ hv hK => ?_
        rw [Eval.leads_write] at hK
        exact (h.follow ht₁).setOwn hmem hind hlast hpl
          (hty ▸ hv.assign hw.checked.laid hassign) hK (hgo.follow ht₁)
  | field ob y =>
    have ho : Expr.OccursIn b.source ob := .here hocc List.mem_cons_self
    obtain ⟨k, lk, j, d, hok, hlk, hfield, rfl⟩ := htarget
    obtain ⟨l, j', d', n₁, b₁, b₂, b₃, hl, hfield', hato, hguard, hate, hstore⟩ := hat
    cases hlk.symm.trans (hl.get? hok)
    cases hfield.symm.trans hfield'
    obtain ⟨hop, -, rfl⟩ := codeAt_singleton.1 hguard
    obtain ⟨hop', -, rfl⟩ := codeAt_singleton.1 hstore
    have hle := Emit.exprAt_le hato
    simp only [Meaning.assign, bind_assoc] at hlead
    refine h.expr hper ho hok hato hstart hlead fun V₁ v x ht₁ hv hK => ?_
    have h₁ := h.follow ht₁
    refine h₁.guard hv hop hK fun r B lB hr hx hkind hbelow _ hK => ?_
    subst hx
    refine h₁.expr hper hvalue he hate (by omega) hK fun V₂ u z ht₂ hu hK => ?_
    simp only [Eval.leads_world, Eval.leads_become] at hK
    exact (h₁.follow ht₂).setField (ht₂.image.objects r B hr) hkind hbelow hlk hfield hop'
      (hu.assign hw.checked.laid hassign) hK ((hgo.follow ht₁).follow ht₂)

end

/-! ### Statements -/

mutual

/-- A statement does what it means. -/
theorem stmt {V : Scene} {S : List Int32} {a a' : Nat} (h : w.Meant s₀ t₀ b sc V)
    (hper : w.Performs s₀ fin n) {st : Stmt} {l l' : Nat} (hocc : Stmt.OccursIn b.source st)
    (hok : (t₀.facts w.program.classes).StmtOk b.levels b.passes b.ret st)
    (hat : Emit.StmtAt w.program (w.names b) b.code st l a l' a') (hstart : b.start ≤ a)
    {K : Flow → Eval (Option Value)}
    (hlead : (Meaning.stmt w.program (w.program.call n) n sc st >>= K).Leads V.world
      (printed V.trace) fin)
    (hgo : w.Proceeds s₀ b sc fin V a' S (K .goesOn))
    (hret : w.Replies s₀ b sc fin V S fun v => K (.returns v)) :
    w.Ends s₀ fin V.ledger (V.trace.on a S) := by
  obtain ⟨p, o, hw⟩ := h.compiled
  cases st with
  | assign target value span =>
    simp only [Meaning.stmt, bind_assoc] at hlead
    refine h.assign hper hocc hok hat hstart hlead ?_
    rw [pure_bind]
    exact hgo
  | expr value span =>
    have hvalue : Expr.OccursIn b.source value := .here hocc List.mem_cons_self
    simp only [StmtOk] at hok
    obtain ⟨t, he⟩ := hok
    obtain ⟨b₁, hate, hcode⟩ := hat
    obtain ⟨hop, hmem, rfl⟩ := codeAt_singleton.1 hcode
    simp only [Meaning.stmt, bind_assoc, pure_bind] at hlead
    refine h.expr hper hvalue he hate hstart hlead fun V₁ v x ht₁ _ hK => ?_
    refine (h.follow ht₁).setMade (m := 0)
      (by decide : _ = '#' :: ['s', 'c', 'r', 'a', 't', 'c', 'h']) hmem hop
      (fun j hj => absurd hj (Nat.not_lt_zero j)) fun s₂ hs₂ ht₂ _ => ?_
    have hp₂ : printed s₂ = printed V₁.trace := by rw [hs₂]; rfl
    exact hgo.follow ht₁ _ ht₂ (hp₂.symm ▸ hK)
  | ret value span =>
    have hvalue : Expr.OccursIn b.source value := .here hocc List.mem_cons_self
    simp only [StmtOk] at hok
    obtain ⟨t, t', he, ht', hassign⟩ := hok
    obtain ⟨b₁, hate, hcode⟩ := hat
    obtain ⟨hop, -, rfl⟩ := codeAt_singleton.1 hcode
    simp only [Meaning.stmt, bind_assoc, pure_bind] at hlead
    refine h.expr hper hvalue he hate hstart hlead fun V₁ v x ht₁ hv hK => ?_
    exact hret t' ht' V₁ v x b₁ (ht₁.le (Nat.zero_le _)) (hv.assign hw.checked.laid hassign) hop hK
  | pass span =>
    obtain ⟨rfl, -⟩ := hat
    simp only [Meaning.stmt, pure_bind] at hlead
    exact hgo V (h.refl 0) hlead
  | cond first others otherwise span =>
    have hfirst : Expr.OccursIn b.source first.test := .here hocc List.mem_cons_self
    have hfirsts : ∀ st ∈ first.body, Stmt.OccursIn b.source st := fun _ hst =>
      hocc.part (List.mem_append_left _ (List.mem_append_left _ hst))
    have hothers : ∀ br ∈ others, Expr.OccursIn b.source br.test ∧
        ∀ st ∈ br.body, Stmt.OccursIn b.source st := fun br hbr =>
      ⟨.here hocc (List.mem_cons_of_mem _ (List.mem_map_of_mem hbr)), fun _ hst => hocc.part
        (List.mem_append_left _ (List.mem_append_right _ (List.mem_flatMap.2 ⟨br, hbr, hst⟩)))⟩
    have hotherwise : ∀ st ∈ otherwise, Stmt.OccursIn b.source st := fun _ hst =>
      hocc.part (List.mem_append_right _ hst)
    simp only [StmtOk] at hok
    obtain ⟨hokf, hoko, hokw⟩ := hok
    obtain ⟨n₁, n₂, b₁, b₂, hatf, hato, hatw⟩ := hat
    have hle := Emit.branchAt_le hatf
    have hle' := Emit.branchesAt_le hato
    simp only [Meaning.stmt, bind_assoc] at hlead
    refine branch h hper ⟨hfirst, hfirsts⟩ hokf hatf hstart hlead ?_ (fun V₁ ht₁ hK => ?_) ?_
    · simp only [pure_bind]
      exact hgo
    · simp only [bind_assoc] at hK
      refine branches (h.follow ht₁) hper hothers hoko hato (by omega) hK ?_ (fun V₂ ht₂ hK => ?_) ?_
      · simp only [pure_bind]
        exact hgo.follow ht₁
      · exact block ((h.follow ht₁).follow ht₂) hper hotherwise hokw hatw (by omega) hK
          ((hgo.follow ht₁).follow ht₂) ((hret.follow ht₁).follow ht₂)
      · simp only [pure_bind]
        exact hret.follow ht₁
    · simp only [pure_bind]
      exact hret
  | loop first span =>
    cases first with
    | mk test body =>
      have ht : Expr.OccursIn b.source test := .here hocc List.mem_cons_self
      have hbody : ∀ st ∈ body, Stmt.OccursIn b.source st := fun _ hst => hocc.part hst
      simp only [StmtOk, BranchOk] at hok
      obtain ⟨hoktest, hokbody⟩ := hok
      obtain ⟨n₁, b₁, b₂, hatt, hops, hatb, hback, rfl⟩ := hat
      obtain ⟨hop₁, hops⟩ := opsAt_cons.1 hops
      obtain ⟨hop₂, -⟩ := opsAt_cons.1 hops
      obtain ⟨hop₃, -⟩ := opsAt_cons.1 hback
      have hle := Emit.exprAt_le hatt
      rw [Meaning.stmt] at hlead
      -- Each turn of the loop leaves fewer of them.
      have hloop : ∀ k, w.Proceeds s₀ b sc fin V a S
          (Meaning.rounds (Meaning.branch w.program (w.program.call n) n sc (.mk test body)) k
            >>= K) := by
        intro k
        induction k with
        | zero => exact fun _ _ hK => absurd hK Eval.not_leads_stuck
        | succ k ih =>
          intro V₁ ht₁ hK
          have h₁ := h.follow ht₁
          simp only [Meaning.rounds, Meaning.branch, bind_assoc] at hK
          refine h₁.expr hper ht hoktest hatt hstart hK fun V₂ v x ht₂ hv hK => ?_
          have h₂ := h₁.follow ht₂
          have ht₃ : w.Turns s₀ b sc 0 V V₂ := ht₁.trans ht₂ (Nat.zero_le _)
          obtain ⟨z, rfl, rfl⟩ := hv
          refine .eqz h₂.holds hop₁ (.jumpIf h₂.holds hop₂ ?_)
          cases z with
          | false =>
            simp only [pure_bind] at hK
            exact hgo V₂ ht₃ hK
          | true =>
            simp only [bind_assoc, pure_bind] at hK
            refine block (a := b₁ + 2) h₂ hper hbody hokbody hatb (by omega) hK
              (fun V₃ ht₄ hK => ?_) ?_
            · exact .jump (h₂.follow ht₄).holds hop₃ (ih V₃ (ht₃.trans ht₄ (Nat.le_refl 0)) hK)
            · simp only [pure_bind]
              exact hret.follow ht₃
      exact hloop n V (h.refl 0) hlead

/-- Statements do what they mean, one after the other. -/
theorem block {V : Scene} {S : List Int32} {a a' : Nat} (h : w.Meant s₀ t₀ b sc V)
    (hper : w.Performs s₀ fin n) {ss : List Stmt} {l l' : Nat}
    (hocc : ∀ st ∈ ss, Stmt.OccursIn b.source st)
    (hok : (t₀.facts w.program.classes).BlockOk b.levels b.passes b.ret ss)
    (hat : Emit.BlockAt w.program (w.names b) b.code ss l a l' a') (hstart : b.start ≤ a)
    {K : Flow → Eval (Option Value)}
    (hlead : (Meaning.block w.program (w.program.call n) n sc ss >>= K).Leads V.world
      (printed V.trace) fin)
    (hgo : w.Proceeds s₀ b sc fin V a' S (K .goesOn))
    (hret : w.Replies s₀ b sc fin V S fun v => K (.returns v)) :
    w.Ends s₀ fin V.ledger (V.trace.on a S) := by
  cases ss with
  | nil =>
    obtain ⟨rfl, -⟩ := hat
    rw [Meaning.block, pure_bind] at hlead
    exact hgo V (h.refl 0) hlead
  | cons st ss =>
    obtain ⟨hst, hss⟩ := List.forall_mem_cons.1 hocc
    simp only [BlockOk] at hok
    obtain ⟨hok₁, hok₂⟩ := hok
    obtain ⟨n₁, b₁, hats, hat⟩ := hat
    have hle := Emit.stmtAt_le hats
    simp only [Meaning.block, bind_assoc] at hlead
    refine stmt h hper hst hok₁ hats hstart hlead (fun V₁ ht₁ hK => ?_) ?_
    · exact block (h.follow ht₁) hper hss hok₂ hat (by omega) hK (hgo.follow ht₁)
        (hret.follow ht₁)
    · simp only [pure_bind]
      exact hret

/-- A branch goes to the exit behind its statements, and on if its condition is false. -/
theorem branch {V : Scene} {S : List Int32} {a a' : Nat} (h : w.Meant s₀ t₀ b sc V)
    (hper : w.Performs s₀ fin n) {br : Branch} {l l' exit : Nat}
    (hocc : Expr.OccursIn b.source br.test ∧ ∀ st ∈ br.body, Stmt.OccursIn b.source st)
    (hok : (t₀.facts w.program.classes).BranchOk b.levels b.passes b.ret br)
    (hat : Emit.BranchAt w.program (w.names b) b.code exit br l a l' a') (hstart : b.start ≤ a)
    {K : Option Flow → Eval (Option Value)}
    (hlead : (Meaning.branch w.program (w.program.call n) n sc br >>= K).Leads V.world
      (printed V.trace) fin)
    (hgo : w.Proceeds s₀ b sc fin V exit S (K (some .goesOn)))
    (hnext : w.Proceeds s₀ b sc fin V a' S (K none))
    (hret : w.Replies s₀ b sc fin V S fun v => K (some (.returns v))) :
    w.Ends s₀ fin V.ledger (V.trace.on a S) := by
  cases br with
  | mk test body =>
    obtain ⟨ht, hbody⟩ := hocc
    simp only [BranchOk] at hok
    obtain ⟨hoktest, hokbody⟩ := hok
    obtain ⟨n₁, b₁, b₂, hatt, hops, hatb, hjump, rfl⟩ := hat
    obtain ⟨hop₁, -⟩ := opsAt_cons.1 hops
    obtain ⟨hop₂, -⟩ := opsAt_cons.1 hjump
    have hle := Emit.exprAt_le hatt
    simp only [Meaning.branch, bind_assoc] at hlead
    refine h.expr hper ht hoktest hatt hstart hlead fun V₁ v x ht₁ hv hK => ?_
    have h₁ := h.follow ht₁
    obtain ⟨z, rfl, rfl⟩ := hv
    refine .jumpUnless h₁.holds hop₁ ?_
    cases z with
    | false =>
      simp only [pure_bind] at hK
      exact hnext V₁ (ht₁.le (Nat.zero_le _)) hK
    | true =>
      simp only [bind_assoc, pure_bind] at hK
      refine block (a := b₁ + 1) h₁ hper hbody hokbody hatb (by omega) hK (fun V₂ ht₂ hK => ?_)
        (hret.follow ht₁)
      exact .jump (h₁.follow ht₂).holds hop₂ (hgo.follow ht₁ V₂ ht₂ hK)

/-- Branches follow one another, until one leaves. -/
theorem branches {V : Scene} {S : List Int32} {a a' : Nat} (h : w.Meant s₀ t₀ b sc V)
    (hper : w.Performs s₀ fin n) {brs : List Branch} {l l' exit : Nat}
    (hocc : ∀ br ∈ brs, Expr.OccursIn b.source br.test ∧
      ∀ st ∈ br.body, Stmt.OccursIn b.source st)
    (hok : (t₀.facts w.program.classes).BranchesOk b.levels b.passes b.ret brs)
    (hat : Emit.BranchesAt w.program (w.names b) b.code exit brs l a l' a') (hstart : b.start ≤ a)
    {K : Option Flow → Eval (Option Value)}
    (hlead : (Meaning.branches w.program (w.program.call n) n sc brs >>= K).Leads V.world
      (printed V.trace) fin)
    (hgo : w.Proceeds s₀ b sc fin V exit S (K (some .goesOn)))
    (hnext : w.Proceeds s₀ b sc fin V a' S (K none))
    (hret : w.Replies s₀ b sc fin V S fun v => K (some (.returns v))) :
    w.Ends s₀ fin V.ledger (V.trace.on a S) := by
  cases brs with
  | nil =>
    obtain ⟨rfl, -⟩ := hat
    rw [Meaning.branches, pure_bind] at hlead
    exact hnext V (h.refl 0) hlead
  | cons br brs =>
    obtain ⟨hbr, hbrs⟩ := List.forall_mem_cons.1 hocc
    simp only [BranchesOk] at hok
    obtain ⟨hok₁, hok₂⟩ := hok
    obtain ⟨n₁, b₁, hatb, hat⟩ := hat
    have hle := Emit.branchAt_le hatb
    simp only [Meaning.branches, bind_assoc] at hlead
    refine branch h hper hbr hok₁ hatb hstart hlead ?_ (fun V₁ ht₁ hK => ?_) ?_
    · simp only [pure_bind]
      exact hgo
    · exact branches (h.follow ht₁) hper hbrs hok₂ hat (by omega) hK (hgo.follow ht₁)
        (hnext.follow ht₁) (hret.follow ht₁)
    · simp only [pure_bind]
      exact hret

end

end Meant

end Setting

end ObjLang
