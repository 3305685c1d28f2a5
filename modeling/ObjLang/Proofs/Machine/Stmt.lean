import ObjLang.Proofs.Machine.Expr

/-!
# ObjLang.Proofs.Machine.Stmt — runs of statements

The code of the statements of a function, run in a call that is past its prologue, is sound at every step.  It
comes to its end with the operands it found, or to a return with one more, or goes on for ever.
-/

namespace ObjLang

open Check Check.Facts

namespace Setting

/-- A property holds of what follows when the call comes to a position. -/
def Arrives (w : Setting) (b : Body) (Q R : Trace → Prop) (n : Nat) (s : Trace) (a : Nat)
    (S : List Int32) : Prop :=
  ∀ s', w.Follows b s s' → w.Room s' → Trace.Until w.linked w.maxDepth Q R n (s'.on a S)

/-- A property holds of what follows when the call comes to a return, if there may be one. -/
def Returns (w : Setting) (b : Body) (Q R : Trace → Prop) (n lim : Nat) (s : Trace)
    (S : List Int32) : Prop :=
  b.ret ≠ none → ∀ s' v i, w.Follows b s s' → w.Room s' → i < lim → b.code[i]? = some .ret →
    Trace.Until w.linked w.maxDepth Q R n (s'.on i (v :: S))

variable {w : Setting} {t₀ : State} {b : Body} {Q R : Trace → Prop} {k lim n m a a' : Nat}
  {s s' : Trace} {S : List Int32}

theorem Arrives.follow (h : w.Arrives b Q R n s a S) (hf : w.Follows b s s') :
    w.Arrives b Q R n s' a S :=
  fun _ hf' hr => h _ (hf.trans hf') hr

theorem Arrives.le (h : w.Arrives b Q R n s a S) (hm : m ≤ n) : w.Arrives b Q R m s a S :=
  fun s' hf hr => (h s' hf hr).le hm

theorem Returns.follow (h : w.Returns b Q R n lim s S) (hf : w.Follows b s s') :
    w.Returns b Q R n lim s' S :=
  fun hne _ v i hf' hr hi hop => h hne _ v i (hf.trans hf') hr hi hop

theorem Returns.le (h : w.Returns b Q R n lim s S) (hm : m ≤ n) :
    w.Returns b Q R m lim s S :=
  fun hne s' v i hf hr hi hop => (h hne s' v i hf hr hi hop).le hm

namespace Here

/-! ### Assignments -/

/-- A variable of the function that has no cell gets a value. -/
theorem setOwn (h : w.Here t₀ b Q k lim s) (hr : w.Room s) {u : VarId} (hu : u ∈ b.vars)
    (hplain : (w.program.var u).isIndirect = false)
    (hcode : CodeAt (w.names b) b.code [.localSet (w.program.var u).name] a a') (hlim : a' ≤ lim)
    (harr : w.Arrives b Q R n s a' S) {v : Int32} :
    Trace.Until w.linked w.maxDepth Q R n (s.on a (v :: S)) := by
  obtain ⟨hop, -, rfl⟩ := codeAt_singleton.1 hcode
  refine h.localSet (by omega) hop (fun u' hu' hind heq => ?_) fun s' hf hh _ _ =>
    harr s' hf (hr.same hh)
  have hslot : w.program.slot u = w.program.slot u' := (h.body.slot u hu).symm.trans heq
  obtain rfl := h.body.inj u hu u' hu' hslot
  rw [hplain] at hind
  cases hind

/-- An assignment to a variable with a cell writes into the cell. -/
theorem stores_cell (h : w.Here t₀ b Q k lim s) (hp : w.Past b) {x : String} {y : Ident}
    {v : VarId} (hown : (t₀.facts w.program.classes).IsOwn b.levels x v)
    (hind : (w.program.var v).isIndirect = true)
    (hat : Emit.EndsAt w.program (w.names b) b.code b.source (.name y (some v)) i)
    (hstart : b.start ≤ i) {z : Int32} (hz : s.thread.frame.locals[w.program.slot v]? = some z)
    {c : Trace.Call} (hfun : c.function = w.module.index b.name) : w.Stores (s.on i S) c z 0 := by
  have hmem := h.body.own x v hown
  obtain ⟨l, lv, hlevels, -⟩ := hown
  obtain ⟨outer, d, hd, -, hname, hvars, hsource⟩ := h.body.inner l lv hlevels
  have hpast := (hp outer d hd (congrArg w.module.index hname)).2
  refine .cell (g := b.func) (y := y) hd h.body.mem (h.body.name.trans hname) (h.body.name ▸ hfun)
    (hpast ▸ hstart) ?_ (hvars ▸ hmem) hind hz rfl
  rw [Trace.on_thread, Thread.on_code, Thread.on_position, h.steady.code]
  rw [← hsource]
  exact hat

/-- An assignment to a field writes to the address that it was given. -/
theorem stores_field (h : w.Here t₀ b Q k lim s) {o : Expr} {f : Ident}
    (hat : Emit.EndsAt w.program (w.names b) b.code b.source (.field o f) i)
    (hstart : b.start ≤ i) {c : Trace.Call} (hfun : c.function = w.module.index b.name) {z : Int32} :
    w.Stores (s.on i S) c z j := by
  have hstatements : w.program.Statements b.name b.source b.start := by
    obtain ⟨value, span, _, _, _, hocc, -⟩ := hat
    refine h.body.statements.resolve_left fun hnil => ?_
    have hvalue : Expr.OccursIn b.source value :=
      .here hocc (List.mem_append_right _ List.mem_cons_self)
    exact hvalue.source_ne_nil hnil
  refine .field (g := b.func) (o := o) (f := f) h.body.mem (h.body.name ▸ hfun) (h.body.name ▸ hstatements) hstart ?_
  rw [Trace.on_thread, Thread.on_code, Thread.on_position, h.steady.code]
  exact hat

theorem assign (h : w.Here t₀ b Q k lim s) (hserves : ∀ m < n, w.Serves m) (hp : w.Past b)
    (hr : w.Room s) {target : Target} {value : Expr} {span : Span} {l l' : Nat}
    (hocc : Stmt.OccursIn b.source (.assign target value span))
    (hat : Emit.AssignAt w.program (w.names b) b.code value target l a l' a')
    (hstart : b.start ≤ a) (hlim : a' ≤ lim) (harr : w.Arrives b Q R n s a' S) :
    Trace.Until w.linked w.maxDepth Q R n (s.on a S) := by
  obtain ⟨p, o, hw⟩ := h.compiled
  have he : Expr.OccursIn b.source value :=
    .here hocc (List.mem_append_right _ List.mem_cons_self)
  cases target with
  | name x v =>
    have hok := stmtOk_of_occursIn h.body.typed hocc
    simp only [StmtOk] at hok
    obtain ⟨_, _, -, ht, -⟩ := hok
    obtain ⟨v, _, rfl, -, hreach, -⟩ := ht
    have hwhole := hat
    obtain ⟨_, b₁, b₂, ⟨⟩, hfirst, hate, hlast⟩ := hat
    have hle := Emit.codeAt_le hfirst
    have hle' := Emit.codeAt_le hlast
    obtain ⟨hg, d, hd, hname⟩ | ⟨hg, hown⟩ := h.reaches_cases hreach
    · simp only [hg, Bool.true_eq_false, false_and, if_false, if_true] at hfirst hlast
      obtain rfl := codeAt_nil.1 hfirst
      obtain ⟨hop, -, rfl⟩ := codeAt_singleton.1 hlast
      refine expr h hserves hp hr he hate hstart (by omega) fun s₁ y hf₁ hr₁ => ?_
      refine (h.follow hf₁).globalSet (by omega) hop (hname ▸ hw.global_ne hd b.func)
        fun s₂ hf₂ hh₂ => harr s₂ (hf₁.trans hf₂) (hr₁.same hh₂)
    · have hmem := h.body.own x.name v hown
      simp only [hg, true_and, Bool.false_eq_true, if_false] at hfirst hlast
      cases hind : (w.program.var v).isIndirect with
      | true =>
        simp only [hind, if_true] at hfirst hlast
        obtain ⟨hop, -, rfl⟩ := codeAt_singleton.1 hfirst
        obtain ⟨hop', -, rfl⟩ := codeAt_singleton.1 hlast
        have hle'' := Emit.exprAt_le hate
        refine h.localGet (by omega) hop fun z hz => ?_
        refine expr h hserves hp hr he hate (by omega) (by omega) fun s₁ y hf₁ hr₁ => ?_
        have hslot : s₁.thread.frame.locals[w.program.slot v]? = some z :=
          (hf₁.slots v hmem hind).trans (h.body.slot v hmem ▸ hz)
        refine (h.follow hf₁).store (by omega) hop' (fun c _ hfun => ?_) fun s₂ hf₂ hh₂ _ _ =>
          harr s₂ (hf₁.trans hf₂) (hr₁.same hh₂)
        exact (h.follow hf₁).stores_cell hp hown hind ⟨value, span, _, _, _, hocc, hwhole⟩
          (by omega) hslot hfun
      | false =>
        simp only [hind, Bool.false_eq_true, if_false] at hfirst hlast
        obtain rfl := codeAt_nil.1 hfirst
        refine expr h hserves hp hr he hate hstart (by omega) fun s₁ y hf₁ hr₁ => ?_
        exact (h.follow hf₁).setOwn hr₁ hmem hind hlast hlim (harr.follow hf₁)
  | field o x =>
    have ho : Expr.OccursIn b.source o := .here hocc List.mem_cons_self
    have hwhole := hat
    obtain ⟨l, j, d, n₁, b₁, b₂, b₃, hl, hfield, hato, hguard, hate, hstore⟩ := hat
    obtain ⟨hop, -, rfl⟩ := codeAt_singleton.1 hguard
    obtain ⟨hop', -, rfl⟩ := codeAt_singleton.1 hstore
    have hle := Emit.exprAt_le hato
    have hle' := Emit.exprAt_le hate
    refine expr h hserves hp hr ho hato hstart (by omega) fun s₁ y hf₁ hr₁ => ?_
    have h₁ := h.follow hf₁
    refine h₁.guard (by omega) hop ⟨o, a, hstart, .write hocc hwhole hato hop⟩ fun _ => ?_
    refine expr h₁ hserves hp hr₁ he hate (by omega) (by omega) fun s₂ z hf₂ hr₂ => ?_
    refine (h₁.follow hf₂).store (by omega) hop' (fun c _ hfun => ?_) fun s₃ hf₃ hh₃ _ _ =>
      harr s₃ ((hf₁.trans hf₂).trans hf₃) (hr₂.same hh₃)
    exact (h₁.follow hf₂).stores_field ⟨value, span, _, _, _, hocc, hwhole⟩ (by omega) hfun

/-! ### Statements -/

mutual

/-- A statement runs soundly. -/
theorem stmt {n : Nat} {s : Trace} {S : List Int32} {a a' : Nat} (h : w.Here t₀ b Q k lim s)
    (hserves : ∀ m < n, w.Serves m) (hp : w.Past b) (hr : w.Room s) {st : Stmt} {l l' : Nat}
    (hocc : Stmt.OccursIn b.source st)
    (hat : Emit.StmtAt w.program (w.names b) b.code st l a l' a') (hstart : b.start ≤ a)
    (hlim : a' ≤ lim) (harr : w.Arrives b Q R n s a' S) (hret : w.Returns b Q R n lim s S) :
    Trace.Until w.linked w.maxDepth Q R n (s.on a S) := by
  cases st with
  | assign target value span =>
    exact h.assign hserves hp hr hocc hat hstart hlim harr
  | expr value span =>
    have he : Expr.OccursIn b.source value := .here hocc List.mem_cons_self
    obtain ⟨b₁, hate, hcode⟩ := hat
    obtain ⟨hop, hmem, rfl⟩ := codeAt_singleton.1 hcode
    refine expr h hserves hp hr he hate hstart (by omega) fun s₁ v hf₁ hr₁ => ?_
    exact (h.follow hf₁).setMade (by decide : _ = '#' :: ['s', 'c', 'r', 'a', 't', 'c', 'h']) hmem
      (by omega) hop fun s₂ hf₂ hh₂ _ => harr s₂ (hf₁.trans hf₂) (hr₁.same hh₂)
  | ret value span =>
    have he : Expr.OccursIn b.source value := .here hocc List.mem_cons_self
    have hok := stmtOk_of_occursIn h.body.typed hocc
    simp only [StmtOk] at hok
    obtain ⟨_, t, -, ht, -⟩ := hok
    obtain ⟨b₁, hate, hcode⟩ := hat
    obtain ⟨hop, -, rfl⟩ := codeAt_singleton.1 hcode
    refine expr h hserves hp hr he hate hstart (by omega) fun s₁ v hf₁ hr₁ => ?_
    exact hret (by simp [ht]) s₁ v b₁ hf₁ hr₁ (by omega) hop
  | pass span =>
    obtain ⟨rfl, -⟩ := hat
    exact harr s h.refl hr
  | cond first others otherwise span =>
    have hfirst : Expr.OccursIn b.source first.test := .here hocc List.mem_cons_self
    have hfirsts : ∀ st ∈ first.body, Stmt.OccursIn b.source st := fun _ hst =>
      hocc.part (List.mem_append_left _ (List.mem_append_left _ hst))
    have hothers : ∀ br ∈ others, Expr.OccursIn b.source br.test ∧
        ∀ st ∈ br.body, Stmt.OccursIn b.source st := fun br hbr =>
      ⟨.here hocc (List.mem_cons_of_mem _ (List.mem_map_of_mem hbr)), fun _ hst => hocc.part
        (List.mem_append_left _ (List.mem_append_right _ (List.mem_flatMap.2 ⟨br, hbr, hst⟩)))⟩
    have hotherwise : ∀ st ∈ otherwise, Stmt.OccursIn b.source st := fun _ hst =>
      hocc.part (List.mem_append_right _ hst)
    obtain ⟨n₁, n₂, b₁, b₂, hatf, hato, hatw⟩ := hat
    have hle := Emit.branchAt_le hatf
    have hle' := Emit.branchesAt_le hato
    have hle'' := Emit.blockAt_le hatw
    refine branch h hserves hp hr ⟨hfirst, hfirsts⟩ hatf hstart (by omega) (by omega) harr
      (fun s₁ hf₁ hr₁ => ?_) hret
    refine branches (h.follow hf₁) hserves hp hr₁ hothers hato (by omega) (by omega) (by omega)
      (harr.follow hf₁) (fun s₂ hf₂ hr₂ => ?_) (hret.follow hf₁)
    exact block ((h.follow hf₁).follow hf₂) hserves hp hr₂ hotherwise hatw (by omega) hlim
      (harr.follow (hf₁.trans hf₂)) (hret.follow (hf₁.trans hf₂))
  | loop first span =>
    cases first with
    | mk test body =>
      have ht : Expr.OccursIn b.source test := .here hocc List.mem_cons_self
      have hbody : ∀ st ∈ body, Stmt.OccursIn b.source st := fun _ hst => hocc.part hst
      obtain ⟨n₁, b₁, b₂, hatt, hops, hatb, hback, rfl⟩ := hat
      obtain ⟨hop₁, hops⟩ := opsAt_cons.1 hops
      obtain ⟨hop₂, -⟩ := opsAt_cons.1 hops
      obtain ⟨hop₃, -⟩ := opsAt_cons.1 hback
      have hle := Emit.exprAt_le hatt
      have hle' := Emit.blockAt_le hatb
      -- The jump back is a step, so that each turn of the loop has fewer steps left.
      have hloop : ∀ m, m ≤ n → w.Arrives b Q R m s a S := by
        intro m
        induction m using Nat.strongRecOn with
        | ind m ih =>
          intro hm s₁ hf₁ hr₁
          have h₁ := h.follow hf₁
          have hserves' : ∀ j < m, w.Serves j := fun j hj => hserves j (Nat.lt_of_lt_of_le hj hm)
          refine expr h₁ hserves' hp hr₁ ht hatt hstart (by omega) fun s₂ v hf₂ hr₂ => ?_
          have h₂ := h₁.follow hf₂
          have hf : w.Follows b s s₂ := hf₁.trans hf₂
          refine h₂.eqz (by omega) hop₁ fun v => ?_
          refine h₂.jumpIf (by omega) (by omega) hop₂ ?_ ((harr.le hm) s₂ hf hr₂)
          refine block h₂ hserves' hp hr₂ hbody hatb (by omega) (by omega)
            (fun s₃ hf₃ hr₃ => ?_) ((hret.le hm).follow hf)
          exact (h₂.follow hf₃).jump (by omega) (by omega) hop₃ fun j hj =>
            ih j hj (by omega) s₃ (hf.trans hf₃) hr₃
      exact hloop n (Nat.le_refl n) s h.refl hr

/-- Statements run soundly, one after the other. -/
theorem block {n : Nat} {s : Trace} {S : List Int32} {a a' : Nat} (h : w.Here t₀ b Q k lim s)
    (hserves : ∀ m < n, w.Serves m) (hp : w.Past b) (hr : w.Room s) {ss : List Stmt} {l l' : Nat}
    (hocc : ∀ st ∈ ss, Stmt.OccursIn b.source st)
    (hat : Emit.BlockAt w.program (w.names b) b.code ss l a l' a') (hstart : b.start ≤ a)
    (hlim : a' ≤ lim) (harr : w.Arrives b Q R n s a' S) (hret : w.Returns b Q R n lim s S) :
    Trace.Until w.linked w.maxDepth Q R n (s.on a S) := by
  cases ss with
  | nil =>
    obtain ⟨rfl, -⟩ := hat
    exact harr s h.refl hr
  | cons st ss =>
    obtain ⟨hst, hss⟩ := List.forall_mem_cons.1 hocc
    obtain ⟨n₁, b₁, hats, hat⟩ := hat
    have hle := Emit.stmtAt_le hats
    have hle' := Emit.blockAt_le hat
    refine stmt h hserves hp hr hst hats hstart (by omega) (fun s₁ hf₁ hr₁ => ?_) hret
    exact block (h.follow hf₁) hserves hp hr₁ hss hat (by omega) hlim (harr.follow hf₁)
      (hret.follow hf₁)

/-- A branch runs soundly; it goes to the exit behind its statements, and on if its condition is
false. -/
theorem branch {n : Nat} {s : Trace} {S : List Int32} {a a' : Nat} (h : w.Here t₀ b Q k lim s)
    (hserves : ∀ m < n, w.Serves m) (hp : w.Past b) (hr : w.Room s) {br : Branch} {l l' exit : Nat}
    (hocc : Expr.OccursIn b.source br.test ∧ ∀ st ∈ br.body, Stmt.OccursIn b.source st)
    (hat : Emit.BranchAt w.program (w.names b) b.code exit br l a l' a') (hstart : b.start ≤ a)
    (hlim : a' ≤ lim) (hexit : b.start ≤ exit) (harr : w.Arrives b Q R n s exit S)
    (hnext : w.Arrives b Q R n s a' S) (hret : w.Returns b Q R n lim s S) :
    Trace.Until w.linked w.maxDepth Q R n (s.on a S) := by
  cases br with
  | mk test body =>
    obtain ⟨ht, hbody⟩ := hocc
    obtain ⟨n₁, b₁, b₂, hatt, hops, hatb, hjump, rfl⟩ := hat
    obtain ⟨hop₁, -⟩ := opsAt_cons.1 hops
    obtain ⟨hop₂, -⟩ := opsAt_cons.1 hjump
    have hle := Emit.exprAt_le hatt
    have hle' := Emit.blockAt_le hatb
    refine expr h hserves hp hr ht hatt hstart (by omega) fun s₁ v hf₁ hr₁ => ?_
    have h₁ := h.follow hf₁
    refine h₁.jumpUnless (by omega) (by omega) hop₁ ?_ (hnext s₁ hf₁ hr₁)
    refine block h₁ hserves hp hr₁ hbody hatb (by omega) (by omega) (fun s₂ hf₂ hr₂ => ?_)
      (hret.follow hf₁)
    exact (h₁.follow hf₂).jump (by omega) hexit hop₂ fun j hj =>
      (harr s₂ (hf₁.trans hf₂) hr₂).le (Nat.le_of_lt hj)

/-- Branches run soundly, until one leaves. -/
theorem branches {n : Nat} {s : Trace} {S : List Int32} {a a' : Nat} (h : w.Here t₀ b Q k lim s)
    (hserves : ∀ m < n, w.Serves m) (hp : w.Past b) (hr : w.Room s) {brs : List Branch}
    {l l' exit : Nat} (hocc : ∀ br ∈ brs, Expr.OccursIn b.source br.test ∧
      ∀ st ∈ br.body, Stmt.OccursIn b.source st)
    (hat : Emit.BranchesAt w.program (w.names b) b.code exit brs l a l' a') (hstart : b.start ≤ a)
    (hlim : a' ≤ lim) (hexit : b.start ≤ exit) (harr : w.Arrives b Q R n s exit S)
    (hnext : w.Arrives b Q R n s a' S) (hret : w.Returns b Q R n lim s S) :
    Trace.Until w.linked w.maxDepth Q R n (s.on a S) := by
  cases brs with
  | nil =>
    obtain ⟨rfl, -⟩ := hat
    exact hnext s h.refl hr
  | cons br brs =>
    obtain ⟨hbr, hbrs⟩ := List.forall_mem_cons.1 hocc
    obtain ⟨n₁, b₁, hatb, hat⟩ := hat
    have hle := Emit.branchAt_le hatb
    have hle' := Emit.branchesAt_le hat
    refine branch h hserves hp hr hbr hatb hstart (by omega) hexit harr
      (fun s₁ hf₁ hr₁ => ?_) hret
    exact branches (h.follow hf₁) hserves hp hr₁ hbrs hat (by omega) hlim hexit (harr.follow hf₁)
      (hnext.follow hf₁) (hret.follow hf₁)

end

end Here

end Setting

end ObjLang
