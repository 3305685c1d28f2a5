import ObjLang.Proofs.Machine.Typed.Value

/-!
# ObjLang.Proofs.Machine.Typed.Effect — what statements leave behind

A statement leaves the variables of its function, the blocks of the heap and the variables of the
module with words that suit their types: what is assigned may be, and is written where the target
stands.
-/

namespace ObjLang

open Check Check.Facts

namespace Setting

/-- A property holds of what follows when the call comes to a position. -/
def Comes (w : Setting) (s₀ : Trace) (b : Body) (Q R : Trace → Prop) (n : Nat) (H : Ledger)
    (s : Trace) (a : Nat) (S : List Int32) : Prop :=
  ∀ H' s', w.Moves s₀ b 0 H s H' s' → w.Goes s₀ Q R n H' (s'.on a S)

/-- A property holds of what follows when the call comes to a return with a word of its type. -/
def Answers (w : Setting) (s₀ : Trace) (b : Body) (Q R : Trace → Prop) (n lim : Nat) (H : Ledger)
    (s : Trace) (S : List Int32) : Prop :=
  ∀ t, b.ret = some t → ∀ H' s' v i, w.Moves s₀ b 0 H s H' s' → w.program.Suits H'.blocks v t →
    i < lim → b.code[i]? = some .ret → w.Goes s₀ Q R n H' (s'.on i (v :: S))

variable {w : Setting} {s₀ : Trace} {t₀ : State} {b : Body} {Q R : Trace → Prop}
  {k lim n m i a a' : Nat} {H H' : Ledger} {s s' : Trace} {S : List Int32} {v x : Int32}

theorem Comes.follow (h : w.Comes s₀ b Q R n H s a S) (hm : w.Moves s₀ b m H s H' s') :
    w.Comes s₀ b Q R n H' s' a S :=
  fun _ _ hm' => h _ _ ((hm.le (Nat.zero_le m)).trans hm' (Nat.le_refl 0))

theorem Comes.le (h : w.Comes s₀ b Q R n H s a S) (hle : m ≤ n) : w.Comes s₀ b Q R m H s a S :=
  fun H' s' hm => (h H' s' hm).le hle

theorem Answers.follow (h : w.Answers s₀ b Q R n lim H s S) (hm : w.Moves s₀ b m H s H' s') :
    w.Answers s₀ b Q R n lim H' s' S :=
  fun t ht _ _ v i hm' hv hi hop =>
    h t ht _ _ v i ((hm.le (Nat.zero_le m)).trans hm' (Nat.le_refl 0)) hv hi hop

theorem Answers.le (h : w.Answers s₀ b Q R n lim H s S) (hle : m ≤ n) :
    w.Answers s₀ b Q R m lim H s S :=
  fun t ht H' s' v i hm hv hi hop => (h t ht H' s' v i hm hv hi hop).le hle

end Setting

namespace Compiled

variable {p : Program} {c : CheckedProgram} {t₀ : State} {o : Options} {m : Code.Module}
  {L : LinkedModule}

/-- Variables of the module with one number are one variable. -/
theorem global_binding (h : Compiled p c t₀ o m L) {d d' : VarDef} (hd : d ∈ c.program.vars)
    (hd' : d' ∈ c.program.vars) (g : Code.Func)
    (heq : (m.names g).global d.var.name.name = (m.names g).global d'.var.name.name) :
    d.binding = d'.binding := by
  have hmem : ∀ e ∈ c.program.vars, e.var.name.name ∈ m.globals.map (·.name) := by
    intro e he
    rw [h.generated.globals, List.map_cons, List.map_map]
    exact List.mem_cons_of_mem _ (List.mem_map_of_mem (f := fun d => d.var.name.name) he)
  obtain ⟨i, hi, hx⟩ := lastIndex?_of_mem (hmem d hd)
  obtain ⟨j, hj, hy⟩ := lastIndex?_of_mem (hmem d' hd')
  have hij : (lastIndex? d.var.name.name (m.globals.map (·.name))).getD 0
      = (lastIndex? d'.var.name.name (m.globals.map (·.name))).getD 0 := heq
  rw [hi, hj, Option.getD_some, Option.getD_some] at hij
  have hname : d.var.name.name = d'.var.name.name := by
    rw [hij, hy] at hx
    exact (Option.some.inj hx).symm
  obtain ⟨v, r, t, hb, hl, -⟩ := h.checked.globals d hd
  obtain ⟨v', r', t', hb', hl', -⟩ := h.checked.globals d' hd'
  rw [hname, hl'] at hl
  rw [hb, hb', Option.some.inj hl]

end Compiled

namespace Setting

variable {w : Setting} {s₀ : Trace} {t₀ : State} {b : Body} {Q R : Trace → Prop}
  {k lim n m i a a' : Nat} {H H' : Ledger} {s s' : Trace} {S : List Int32} {v x : Int32}

namespace Holds

/-! ### Assignments -/

/-- A variable of the module gets a value. -/
theorem setGlobal (h : w.Holds s₀ t₀ b Q k lim H s) {d : VarDef} (hd : d ∈ w.program.program.vars)
    {u : VarId} (hu : d.binding = some u)
    (hcode : CodeAt (w.names b) b.code [.globalSet d.var.name.name] a a') (hlim : a' ≤ lim)
    (hv : w.program.Suits H.blocks v (w.program.typeOf u))
    (hcomes : w.Comes s₀ b Q R n H s a' S) : w.Goes s₀ Q R n H (s.on a (v :: S)) := by
  obtain ⟨p, o, hw⟩ := h.compiled
  obtain ⟨hop, -, rfl⟩ := codeAt_singleton.1 hcode
  have hne := hw.global_ne hd b.func
  refine h.globalSet (by omega) hop hne (hcomes H _ (h.moves_store (h.heap.setGlobal hne ?_) 0))
  intro d' hd' hsame u' hu'
  have hbinding := hw.global_binding hd' hd b.func hsame
  rw [hu, hu'] at hbinding
  exact Option.some.inj hbinding ▸ hv

/-- A variable of the function that has no cell gets a value. -/
theorem setOwn (h : w.Holds s₀ t₀ b Q k lim H s) {u : VarId} (hu : u ∈ b.vars)
    (hplain : (w.program.var u).isIndirect = false)
    (hcode : CodeAt (w.names b) b.code [.localSet (w.program.var u).name] a a') (hlim : a' ≤ lim)
    (hv : w.program.Suits H.blocks v (w.program.typeOf u))
    (hcomes : w.Comes s₀ b Q R n H s a' S) : w.Goes s₀ Q R n H (s.on a (v :: S)) := by
  obtain ⟨hop, -, rfl⟩ := codeAt_singleton.1 hcode
  have hslot : b.code[a]? = some (.localSet (w.program.slot u)) :=
    hop.trans (congrArg (some ∘ Op.localSet) (h.body.slot u hu))
  refine h.localSet (by omega) hslot fun hlt => hcomes H _ ?_
  have hok : w.VarOk H.blocks (s.withLocal (w.program.slot u) v).thread.frame u := by
    refine ⟨v, Array.getElem?_setIfInBounds_self_of_lt hlt, ?_⟩
    rw [hplain, if_neg Bool.false_ne_true]
    exact hv
  exact h.moves_slot hu (fun _ => hplain) (.inl hok) fun _ => hok

/-- A word in a block is written. -/
theorem storeBlock (h : w.Holds s₀ t₀ b Q k lim H s) (hlim : i < lim) {B : Block}
    (hB : B ∈ H.blocks) {j : Nat} (hj : j < B.kind.words)
    (hop : b.code[i]? = some (.store (4 * j))) (hv : B.kind.Takes w.program H.blocks j v)
    (hcomes : w.Comes s₀ b Q R n H s (i + 1) S) :
    w.Goes s₀ Q R n H (s.on i (v :: Int32.ofNat B.address :: S)) := by
  refine h.store hlim hop (.inl ?_) fun _ => ?_
  · rw [h.position_block hB]
    exact h.block_inside hB hj
  · rw [h.position_block hB]
    exact hcomes H _ (h.moves_store (h.heap.write hB hj hv) 0)

theorem assign (h : w.Holds s₀ t₀ b Q k lim H s) (hsup : ∀ m < n, w.Supplies s₀ m) (hp : w.Past b)
    {target : Target} {value : Expr} {span : Span} {l l' : Nat}
    (hocc : Stmt.OccursIn b.source (.assign target value span))
    (hok : (t₀.facts w.program.classes).StmtOk b.levels b.passes b.ret (.assign target value span))
    (hat : Emit.AssignAt w.program (w.names b) b.code value target l a l' a')
    (hstart : b.start ≤ a) (hlim : a' ≤ lim) (hcomes : w.Comes s₀ b Q R n H s a' S) :
    w.Goes s₀ Q R n H (s.on a S) := by
  obtain ⟨p, o, hw⟩ := h.compiled
  have hvalue : Expr.OccursIn b.source value :=
    .here hocc (List.mem_append_right _ List.mem_cons_self)
  simp only [StmtOk] at hok
  obtain ⟨t, t', he, htarget, hassign⟩ := hok
  cases target with
  | name x u =>
    obtain ⟨u, r, rfl, hr, hreach, -, rfl, -⟩ := htarget
    have hty : w.program.typeOf u = r.ty.ty := hw.checked.typeOf_eq hr
    obtain ⟨_, b₁, b₂, ⟨⟩, hfirst, hate, hlast⟩ := hat
    have hle := Emit.codeAt_le hfirst
    have hle' := Emit.codeAt_le hlast
    obtain ⟨hg, d, hd, hname, hbinding⟩ | ⟨hg, hmem⟩ := h.reaches_cases hreach
    · simp only [hg, Bool.true_eq_false, false_and, if_false, if_true] at hfirst hlast
      obtain rfl := codeAt_nil.1 hfirst
      refine expr h hsup hp hvalue he hate hstart (by omega) fun H₁ s₁ y hm₁ hy => ?_
      exact (h.follow hm₁).setGlobal hd hbinding (hname ▸ hlast) hlim
        (hty ▸ hy.assign hw.checked.laid hassign) (hcomes.follow hm₁)
    · simp only [hg, true_and, Bool.false_eq_true, if_false] at hfirst hlast
      cases hind : (w.program.var u).isIndirect with
      | true =>
        simp only [hind, if_true] at hfirst hlast
        obtain ⟨hop, -, rfl⟩ := codeAt_singleton.1 hfirst
        obtain ⟨hop', -, rfl⟩ := codeAt_singleton.1 hlast
        have hle'' := Emit.exprAt_le hate
        obtain ⟨z, hz, hcell⟩ := h.vars hp u hmem
        rw [if_pos hind] at hcell
        obtain ⟨B, hB, u', rfl, hkind, -, hty'⟩ := hcell
        refine h.localGet (by omega) hop ((h.body.slot u hmem).symm ▸ hz) ?_
        refine expr h hsup hp hvalue he hate (by omega) (by omega) fun H₁ s₁ y hm₁ hy => ?_
        refine (h.follow hm₁).storeBlock (by omega) (hm₁.sub.blocks B hB) (j := 0)
          (by rw [hkind]; exact Nat.one_pos) hop' ?_ (hcomes.follow hm₁)
        rw [hkind]
        show w.program.Suits H₁.blocks y (w.program.typeOf u')
        rw [hty', hty]
        exact hy.assign hw.checked.laid hassign
      | false =>
        simp only [hind, Bool.false_eq_true, if_false] at hfirst hlast
        obtain rfl := codeAt_nil.1 hfirst
        refine expr h hsup hp hvalue he hate hstart (by omega) fun H₁ s₁ y hm₁ hy => ?_
        exact (h.follow hm₁).setOwn hmem hind hlast hlim
          (hty ▸ hy.assign hw.checked.laid hassign) (hcomes.follow hm₁)
  | field o x =>
    have ho : Expr.OccursIn b.source o := .here hocc List.mem_cons_self
    obtain ⟨y, ly, j, d, hoy, hly, hfield, rfl⟩ := htarget
    obtain ⟨l, j', d', n₁, b₁, b₂, b₃, hl, hfield', hato, hguard, hate, hstore⟩ := hat
    cases hly.symm.trans (hl.get? hoy)
    cases hfield.symm.trans hfield'
    obtain ⟨hop, -, rfl⟩ := codeAt_singleton.1 hguard
    obtain ⟨hop', -, rfl⟩ := codeAt_singleton.1 hstore
    have hle := Emit.exprAt_le hato
    have hle' := Emit.exprAt_le hate
    refine expr h hsup hp ho hoy hato hstart (by omega) fun H₁ s₁ v hm₁ hv => ?_
    have h₁ := h.follow hm₁
    refine h₁.guard (by omega) hop fun hpos => ?_
    obtain ⟨B, hB, rfl, lB, hkind, hlB, hbelow⟩ := h₁.exists_object hv hpos
    have hplace := h₁.field_place hlB hbelow hly hfield
    have hlt := (List.getElem?_eq_some_iff.1 hplace).1
    refine expr h₁ hsup hp hvalue he hate (by omega) (by omega) fun H₂ s₂ z hm₂ hz => ?_
    refine (h₁.follow hm₂).storeBlock (by omega) (hm₂.sub.blocks B hB) (j := j + 1) ?_ hop' ?_
      ((hcomes.follow hm₁).follow hm₂)
    · rw [hkind]
      exact Nat.succ_lt_succ hlt
    · rw [hkind]
      intro f hf
      cases hplace.symm.trans hf
      exact hz.assign hw.checked.laid hassign

/-! ### Statements -/

mutual

/-- A statement keeps words in place that suit their types. -/
theorem stmt {n : Nat} {H : Ledger} {s : Trace} {S : List Int32} {a a' : Nat}
    (h : w.Holds s₀ t₀ b Q k lim H s) (hsup : ∀ m < n, w.Supplies s₀ m) (hp : w.Past b) {st : Stmt}
    {l l' : Nat} (hocc : Stmt.OccursIn b.source st)
    (hok : (t₀.facts w.program.classes).StmtOk b.levels b.passes b.ret st)
    (hat : Emit.StmtAt w.program (w.names b) b.code st l a l' a') (hstart : b.start ≤ a)
    (hlim : a' ≤ lim) (hcomes : w.Comes s₀ b Q R n H s a' S)
    (hret : w.Answers s₀ b Q R n lim H s S) : w.Goes s₀ Q R n H (s.on a S) := by
  obtain ⟨p, o, hw⟩ := h.compiled
  cases st with
  | assign target value span => exact h.assign hsup hp hocc hok hat hstart hlim hcomes
  | expr value span =>
    have hvalue : Expr.OccursIn b.source value := .here hocc List.mem_cons_self
    simp only [StmtOk] at hok
    obtain ⟨t, he⟩ := hok
    obtain ⟨b₁, hate, hcode⟩ := hat
    obtain ⟨hop, hmem, rfl⟩ := codeAt_singleton.1 hcode
    refine expr h hsup hp hvalue he hate hstart (by omega) fun H₁ s₁ v hm₁ _ => ?_
    exact (h.follow hm₁).setMade (m := 0)
      (by decide : _ = '#' :: ['s', 'c', 'r', 'a', 't', 'c', 'h']) hmem (by omega) hop
      (fun j hj => absurd hj (Nat.not_lt_zero j)) fun s₂ hm₂ _ _ => hcomes.follow hm₁ H₁ s₂ hm₂
  | ret value span =>
    have hvalue : Expr.OccursIn b.source value := .here hocc List.mem_cons_self
    simp only [StmtOk] at hok
    obtain ⟨t, t', he, ht', hassign⟩ := hok
    obtain ⟨b₁, hate, hcode⟩ := hat
    obtain ⟨hop, -, rfl⟩ := codeAt_singleton.1 hcode
    refine expr h hsup hp hvalue he hate hstart (by omega) fun H₁ s₁ v hm₁ hv => ?_
    exact hret t' ht' H₁ s₁ v b₁ (hm₁.le (Nat.zero_le _)) (hv.assign hw.checked.laid hassign)
      (by omega) hop
  | pass span =>
    obtain ⟨rfl, -⟩ := hat
    exact hcomes H s (h.refl 0)
  | cond first others otherwise span =>
    have hfirst : Expr.OccursIn b.source first.test := .here hocc List.mem_cons_self
    have hfirsts : ∀ st ∈ first.body, Stmt.OccursIn b.source st := fun _ hst =>
      hocc.part (List.mem_append_left _ (List.mem_append_left _ hst))
    have hothers : ∀ br ∈ others, Expr.OccursIn b.source br.test ∧
        ∀ st ∈ br.body, Stmt.OccursIn b.source st := fun br hbr =>
      ⟨.here hocc (List.mem_cons_of_mem _ (List.mem_map_of_mem hbr)), fun _ hst => hocc.part
        (List.mem_append_left _ (List.mem_append_right _ (List.mem_flatMap.2 ⟨br, hbr, hst⟩)))⟩
    have hotherwise : ∀ st ∈ otherwise, Stmt.OccursIn b.source st := fun _ hst =>
      hocc.part (List.mem_append_right _ hst)
    simp only [StmtOk] at hok
    obtain ⟨hokf, hoko, hokw⟩ := hok
    obtain ⟨n₁, n₂, b₁, b₂, hatf, hato, hatw⟩ := hat
    have hle := Emit.branchAt_le hatf
    have hle' := Emit.branchesAt_le hato
    have hle'' := Emit.blockAt_le hatw
    refine branch h hsup hp ⟨hfirst, hfirsts⟩ hokf hatf hstart (by omega) hcomes
      (fun H₁ s₁ hm₁ => ?_) hret
    refine branches (h.follow hm₁) hsup hp hothers hoko hato (by omega) (by omega)
      (hcomes.follow hm₁) (fun H₂ s₂ hm₂ => ?_) (hret.follow hm₁)
    exact block ((h.follow hm₁).follow hm₂) hsup hp hotherwise hokw hatw (by omega) hlim
      ((hcomes.follow hm₁).follow hm₂) ((hret.follow hm₁).follow hm₂)
  | loop first span =>
    cases first with
    | mk test body =>
      have ht : Expr.OccursIn b.source test := .here hocc List.mem_cons_self
      have hbody : ∀ st ∈ body, Stmt.OccursIn b.source st := fun _ hst => hocc.part hst
      simp only [StmtOk, BranchOk] at hok
      obtain ⟨hoktest, hokbody⟩ := hok
      obtain ⟨n₁, b₁, b₂, hatt, hops, hatb, hback, rfl⟩ := hat
      obtain ⟨hop₁, hops⟩ := opsAt_cons.1 hops
      obtain ⟨hop₂, -⟩ := opsAt_cons.1 hops
      obtain ⟨hop₃, -⟩ := opsAt_cons.1 hback
      have hle := Emit.exprAt_le hatt
      have hle' := Emit.blockAt_le hatb
      -- The jump back is a step, so that each turn of the loop has fewer steps left.
      have hloop : ∀ m, m ≤ n → w.Comes s₀ b Q R m H s a S := by
        intro m
        induction m using Nat.strongRecOn with
        | ind m ih =>
          intro hm H₁ s₁ hm₁
          have h₁ := h.follow hm₁
          have hsup' : ∀ j < m, w.Supplies s₀ j := fun j hj => hsup j (Nat.lt_of_lt_of_le hj hm)
          refine expr h₁ hsup' hp ht hoktest hatt hstart (by omega) fun H₂ s₂ v hm₂ _ => ?_
          have h₂ := h₁.follow hm₂
          have hm₃ : w.Moves s₀ b 0 H s H₂ s₂ := hm₁.trans hm₂ (Nat.zero_le _)
          refine h₂.eqz (by omega) hop₁ ?_
          refine h₂.jumpIf (by omega) hop₂ ?_ ((hcomes.le hm) H₂ s₂ hm₃)
          refine block h₂ hsup' hp hbody hokbody hatb (by omega) (by omega)
            (fun H₃ s₃ hm₄ => ?_) ((hret.le hm).follow hm₃)
          exact (h₂.follow hm₄).jump (by omega) hop₃ fun j hj =>
            ih j hj (by omega) H₃ s₃ (hm₃.trans hm₄ (Nat.le_refl 0))
      exact hloop n (Nat.le_refl n) H s (h.refl 0)

/-- Statements keep words in place that suit their types, one after the other. -/
theorem block {n : Nat} {H : Ledger} {s : Trace} {S : List Int32} {a a' : Nat}
    (h : w.Holds s₀ t₀ b Q k lim H s) (hsup : ∀ m < n, w.Supplies s₀ m) (hp : w.Past b)
    {ss : List Stmt} {l l' : Nat} (hocc : ∀ st ∈ ss, Stmt.OccursIn b.source st)
    (hok : (t₀.facts w.program.classes).BlockOk b.levels b.passes b.ret ss)
    (hat : Emit.BlockAt w.program (w.names b) b.code ss l a l' a') (hstart : b.start ≤ a)
    (hlim : a' ≤ lim) (hcomes : w.Comes s₀ b Q R n H s a' S)
    (hret : w.Answers s₀ b Q R n lim H s S) : w.Goes s₀ Q R n H (s.on a S) := by
  cases ss with
  | nil =>
    obtain ⟨rfl, -⟩ := hat
    exact hcomes H s (h.refl 0)
  | cons st ss =>
    obtain ⟨hst, hss⟩ := List.forall_mem_cons.1 hocc
    simp only [BlockOk] at hok
    obtain ⟨hok₁, hok₂⟩ := hok
    obtain ⟨n₁, b₁, hats, hat⟩ := hat
    have hle := Emit.stmtAt_le hats
    have hle' := Emit.blockAt_le hat
    refine stmt h hsup hp hst hok₁ hats hstart (by omega) (fun H₁ s₁ hm₁ => ?_) hret
    exact block (h.follow hm₁) hsup hp hss hok₂ hat (by omega) hlim (hcomes.follow hm₁)
      (hret.follow hm₁)

/-- A branch goes to the exit behind its statements, and on if its condition is false. -/
theorem branch {n : Nat} {H : Ledger} {s : Trace} {S : List Int32} {a a' : Nat}
    (h : w.Holds s₀ t₀ b Q k lim H s) (hsup : ∀ m < n, w.Supplies s₀ m) (hp : w.Past b)
    {br : Branch} {l l' exit : Nat}
    (hocc : Expr.OccursIn b.source br.test ∧ ∀ st ∈ br.body, Stmt.OccursIn b.source st)
    (hok : (t₀.facts w.program.classes).BranchOk b.levels b.passes b.ret br)
    (hat : Emit.BranchAt w.program (w.names b) b.code exit br l a l' a') (hstart : b.start ≤ a)
    (hlim : a' ≤ lim) (hcomes : w.Comes s₀ b Q R n H s exit S)
    (hnext : w.Comes s₀ b Q R n H s a' S) (hret : w.Answers s₀ b Q R n lim H s S) :
    w.Goes s₀ Q R n H (s.on a S) := by
  cases br with
  | mk test body =>
    obtain ⟨ht, hbody⟩ := hocc
    simp only [BranchOk] at hok
    obtain ⟨hoktest, hokbody⟩ := hok
    obtain ⟨n₁, b₁, b₂, hatt, hops, hatb, hjump, rfl⟩ := hat
    obtain ⟨hop₁, -⟩ := opsAt_cons.1 hops
    obtain ⟨hop₂, -⟩ := opsAt_cons.1 hjump
    have hle := Emit.exprAt_le hatt
    have hle' := Emit.blockAt_le hatb
    refine expr h hsup hp ht hoktest hatt hstart (by omega) fun H₁ s₁ v hm₁ _ => ?_
    have h₁ := h.follow hm₁
    refine h₁.jumpUnless (by omega) hop₁ ?_ (hnext H₁ s₁ (hm₁.le (Nat.zero_le _)))
    refine block h₁ hsup hp hbody hokbody hatb (by omega) (by omega) (fun H₂ s₂ hm₂ => ?_)
      (hret.follow hm₁)
    exact (h₁.follow hm₂).jump (by omega) hop₂ fun j hj =>
      (hcomes.follow hm₁ H₂ s₂ hm₂).le (Nat.le_of_lt hj)

/-- Branches follow one another, until one leaves. -/
theorem branches {n : Nat} {H : Ledger} {s : Trace} {S : List Int32} {a a' : Nat}
    (h : w.Holds s₀ t₀ b Q k lim H s) (hsup : ∀ m < n, w.Supplies s₀ m) (hp : w.Past b)
    {brs : List Branch} {l l' exit : Nat}
    (hocc : ∀ br ∈ brs, Expr.OccursIn b.source br.test ∧
      ∀ st ∈ br.body, Stmt.OccursIn b.source st)
    (hok : (t₀.facts w.program.classes).BranchesOk b.levels b.passes b.ret brs)
    (hat : Emit.BranchesAt w.program (w.names b) b.code exit brs l a l' a') (hstart : b.start ≤ a)
    (hlim : a' ≤ lim) (hcomes : w.Comes s₀ b Q R n H s exit S)
    (hnext : w.Comes s₀ b Q R n H s a' S) (hret : w.Answers s₀ b Q R n lim H s S) :
    w.Goes s₀ Q R n H (s.on a S) := by
  cases brs with
  | nil =>
    obtain ⟨rfl, -⟩ := hat
    exact hnext H s (h.refl 0)
  | cons br brs =>
    obtain ⟨hbr, hbrs⟩ := List.forall_mem_cons.1 hocc
    simp only [BranchesOk] at hok
    obtain ⟨hok₁, hok₂⟩ := hok
    obtain ⟨n₁, b₁, hatb, hat⟩ := hat
    have hle := Emit.branchAt_le hatb
    have hle' := Emit.branchesAt_le hat
    refine branch h hsup hp hbr hok₁ hatb hstart (by omega) hcomes (fun H₁ s₁ hm₁ => ?_) hret
    exact branches (h.follow hm₁) hsup hp hbrs hok₂ hat (by omega) hlim (hcomes.follow hm₁)
      (hnext.follow hm₁) (hret.follow hm₁)

end

end Holds

end Setting

end ObjLang
