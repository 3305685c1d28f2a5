import ObjLang.Proofs.Emit.Total
import ObjLang.Proofs.Machine.Invoke

/-!
# ObjLang.Proofs.Machine.Expr — runs of expressions

The code of an expression of a function, run in a call that is past its prologue, is sound at every
step and leaves one word; it changes none of the slots that hold cells.
-/

namespace ObjLang

open Check Check.Facts

namespace Setting

/-- A property holds of what follows when the call goes on at a position with one more operand. -/
def GoesOn (w : Setting) (b : Body) (Q R : Trace → Prop) (n : Nat) (s : Trace) (a : Nat)
    (S : List Int32) : Prop :=
  ∀ s' v, w.Follows b s s' → w.Room s' → Trace.Until w.linked w.maxDepth Q R n (s'.on a (v :: S))

variable {w : Setting} {t₀ : State} {b : Body} {Q R : Trace → Prop} {k lim n i a a' : Nat}
  {s s' : Trace} {S : List Int32} {v x : Int32}

theorem GoesOn.follow (h : w.GoesOn b Q R n s a S) (hf : w.Follows b s s') :
    w.GoesOn b Q R n s' a S :=
  fun _ v hf' hr => h _ v (hf.trans hf') hr

namespace Here

/-- The expressions of a function are checked. -/
theorem exprOk (h : w.Here t₀ b Q k lim s) {e : Expr} (he : Expr.OccursIn b.source e) :
    ∃ t, (t₀.facts w.program.classes).ExprOk b.levels b.passes e t :=
  exprOk_of_occursIn h.body.typed he

/-! ### Variables -/

/-- What a name denotes is a variable of the module or one of the function. -/
theorem reaches_cases (h : w.Here t₀ b Q k lim s) {y : String} {u : VarId}
    (hu : (t₀.facts w.program.classes).Reaches b.levels y u) :
    ((w.program.var u).isGlobal = true ∧ ∃ d ∈ w.program.program.vars,
        (w.program.var u).name = d.var.name.name) ∨
      ((w.program.var u).isGlobal = false ∧ (t₀.facts w.program.classes).IsOwn b.levels y u) := by
  obtain ⟨p, o, hw⟩ := h.compiled
  obtain ⟨r, hr, hn, ⟨hg, hl⟩ | hown⟩ := hu
  · obtain ⟨d, hd, hdx, -⟩ := hw.checked.module y u hl
    rw [Emit.var_eq hw.checked hr]
    exact .inl ⟨hg, d, hd, by rw [hn, hdx]⟩
  · exact .inr ⟨h.body.notGlobal u (h.body.own y u hown), hown⟩

/-- The value of a variable. -/
theorem loadVar (h : w.Here t₀ b Q k lim s) {u : VarId}
    (hcode : CodeAt (w.names b) b.code (Emit.loadVar (w.program.var u)) a a') (hlim : a' ≤ lim)
    (hu : ∀ v, Trace.Until w.linked w.maxDepth Q R n (s.on a' (v :: S))) :
    Trace.Until w.linked w.maxDepth Q R n (s.on a S) := by
  unfold Emit.loadVar at hcode
  split at hcode
  · obtain ⟨hop, -, rfl⟩ := codeAt_singleton.1 hcode
    exact h.globalGet (by omega) hop hu
  · split at hcode
    · obtain ⟨hop, -, hcode⟩ := codeAt_cons.1 hcode
      obtain ⟨hop', -, rfl⟩ := codeAt_singleton.1 hcode
      exact h.localGet (by omega) hop fun v _ => h.load (by omega) hop' hu
    · obtain ⟨hop, -, rfl⟩ := codeAt_singleton.1 hcode
      exact h.localGet (by omega) hop fun v _ => hu v

/-- The cells that are passed to a nested function. -/
theorem loadCells (h : w.Here t₀ b Q k lim s) {us : List VarId}
    (hcode : CodeAt (w.names b) b.code (us.map fun u => .localGet (w.program.var u).name) a a')
    (hlim : a' ≤ lim) (hown : ∀ u ∈ us, u ∈ b.vars)
    (hu : ∀ cs, List.Forall₂ (fun u x => s.thread.frame.locals[w.program.slot u]? = some x) us cs →
      Trace.Until w.linked w.maxDepth Q R n (s.on a' (cs.reverse ++ S))) :
    Trace.Until w.linked w.maxDepth Q R n (s.on a S) := by
  induction us generalizing a S with
  | nil =>
    obtain rfl := codeAt_nil.1 hcode
    exact hu [] .nil
  | cons u us ih =>
    obtain ⟨hop, -, hcode⟩ := codeAt_cons.1 hcode
    have hle := Emit.codeAt_le hcode
    have hslot := h.body.slot u (hown u List.mem_cons_self)
    refine h.localGet (by omega) hop fun x hx => ?_
    refine ih hcode (fun u' hu' => hown u' (List.mem_cons_of_mem _ hu')) fun cs hcs => ?_
    have hx' : s.thread.frame.locals[w.program.slot u]? = some x := hslot ▸ hx
    have hall := hu (x :: cs) (.cons hx' hcs)
    rwa [List.reverse_cons, List.append_assoc] at hall

/-! ### Builtin functions -/

/-- A host function that prints. -/
theorem print (h : w.Here t₀ b Q k lim s) (hr : w.Room s) {y : String} {f : HostFunction}
    (hy : (y, f) ∈ Emit.hostNames) (hne : y ≠ Emit.checkInitName) (hres : f.hasResult = false)
    (hcode : CodeAt (w.names b) b.code [.call y, .const 0] a a') (hlim : a' ≤ lim)
    {vs : List Int32} (hvs : vs.length = f.params) (hgo : w.GoesOn b Q R n s a' S) :
    Trace.Until w.linked w.maxDepth Q R n (s.on a (vs ++ S)) := by
  obtain ⟨p, o, hw⟩ := h.compiled
  obtain ⟨hop, -, hcode⟩ := codeAt_cons.1 hcode
  obtain ⟨hop', -, rfl⟩ := codeAt_singleton.1 hcode
  refine h.host (by omega) hop (hw.linked.host hw.generated hy)
    (hw.index_ne_guard (hw.host_mem hy) hne) hvs (fun _ s' hf hh => ?_) fun hres' => ?_
  · exact (h.follow hf).const (by omega) hop' (hgo s' 0 hf (hr.same hh))
  · rw [hres] at hres'
    cases hres'

/-- A host function that gives a word. -/
theorem answer (h : w.Here t₀ b Q k lim s) (hr : w.Room s) {y : String} {f : HostFunction}
    (hy : (y, f) ∈ Emit.hostNames) (hne : y ≠ Emit.checkInitName) (hres : f.hasResult = true)
    (hcode : CodeAt (w.names b) b.code [.call y] a a') (hlim : a' ≤ lim)
    {vs : List Int32} (hvs : vs.length = f.params) (hgo : w.GoesOn b Q R n s a' S) :
    Trace.Until w.linked w.maxDepth Q R n (s.on a (vs ++ S)) := by
  obtain ⟨p, o, hw⟩ := h.compiled
  obtain ⟨hop, -, rfl⟩ := codeAt_singleton.1 hcode
  refine h.host (by omega) hop (hw.linked.host hw.generated hy)
    (hw.index_ne_guard (hw.host_mem hy) hne) hvs (fun hres' => ?_) fun _ v => ?_
  · rw [hres] at hres'
    cases hres'
  · exact hgo s v h.refl hr

theorem builtin (h : w.Here t₀ b Q k lim s) (hr : w.Room s) {f : Builtin} {args : List Expr}
    {is : List Code.Instr} (his : Emit.builtinCode f args = some is)
    (hcode : CodeAt (w.names b) b.code is a a') (hlim : a' ≤ lim) {vs : List Int32}
    (hvs : vs.length = f.arity) (hgo : w.GoesOn b Q R n s a' S) :
    Trace.Until w.linked w.maxDepth Q R n (s.on a (vs ++ S)) := by
  unfold Emit.builtinCode at his
  split at his
  · cases his
    exact h.print hr (f := .printNum) (by simp [Emit.hostNames]) (by decide) rfl hcode hlim hvs hgo
  · cases his
    exact h.print hr (f := .printBool) (by simp [Emit.hostNames]) (by decide) rfl hcode hlim hvs hgo
  · cases his
    exact h.print hr (f := .printNone) (by simp [Emit.hostNames]) (by decide) rfl hcode hlim hvs hgo
  · cases his
  · cases his
    exact h.answer hr (f := .abs) (by simp [Emit.hostNames]) (by decide) rfl hcode hlim hvs hgo
  · cases his
    exact h.answer hr (f := .min) (by simp [Emit.hostNames]) (by decide) rfl hcode hlim hvs hgo
  · cases his
    exact h.answer hr (f := .max) (by simp [Emit.hostNames]) (by decide) rfl hcode hlim hvs hgo
  · cases his
    exact h.answer hr (f := .pow) (by simp [Emit.hostNames]) (by decide) rfl hcode hlim hvs hgo

/-! ### Temporaries -/

/-- A local that the generator made up gets a value. -/
theorem setMade (h : w.Here t₀ b Q k lim s) {y : String} {rest : List Char}
    (hy : y.toList = '#' :: rest) (hmem : y ∈ (w.names b).frame) (hlim : i < lim)
    (hop : b.code[i]? = some (.localSet ((w.names b).slot y)))
    (hu : ∀ s', w.Follows b s s' → s'.heap = s.heap →
      s'.thread.frame.locals[(w.names b).slot y]? = some v →
      Trace.Until w.linked w.maxDepth Q R n (s'.on (i + 1) S)) :
    Trace.Until w.linked w.maxDepth Q R n (s.on i (v :: S)) :=
  h.localSet hlim hop (fun u hu _ => h.body.made y rest hy hmem u hu)
    fun s' hf hh hv _ => hu s' hf hh hv

/-! ### New objects -/

/-- The fields of a new object get their first values; all of them lie in the memory. -/
theorem initFields (h₀ : w.Here t₀ b Q k lim u) (hr : w.Room u) (hf₀ : w.Follows b u s)
    (hx : x = Int32.ofNat u.heap) {fs : List FieldLayout} {j : Nat}
    (hcode : CodeAt (w.names b) b.code (Emit.initFields j fs) a a') (hlim : a' ≤ lim)
    (hnew : s.thread.frame.locals[(w.names b).slot Emit.newName]? = some x)
    (hin : x.toUInt32.toNat + 4 * j + 4 ≤ w.size)
    (hu : ∀ s', w.Follows b s s' → s'.heap = s.heap →
      s'.thread.frame.locals = s.thread.frame.locals →
      x.toUInt32.toNat + 4 * (j + fs.length) + 4 ≤ w.size →
      Trace.Until w.linked w.maxDepth Q R n (s'.on a' S)) :
    Trace.Until w.linked w.maxDepth Q R n (s.on a S) := by
  have h := h₀.follow hf₀
  induction fs generalizing s j a with
  | nil =>
    obtain rfl := codeAt_nil.1 hcode
    exact hu s h.refl rfl rfl hin
  | cons f fs ih =>
    obtain ⟨hop₁, -, hcode⟩ := codeAt_cons.1 hcode
    obtain ⟨hop₂, -, hcode⟩ := codeAt_cons.1 hcode
    obtain ⟨hop₃, -, hcode⟩ := codeAt_cons.1 hcode
    have hle := Emit.codeAt_le hcode
    refine h.localGet (by omega) hop₁ fun y hy => ?_
    obtain rfl : x = y := Option.some.inj (hnew.symm.trans hy)
    refine h.const (by omega) hop₂ ?_
    refine h.store (by omega) hop₃ (fun c hc hfun => ?_) fun s₁ hf₁ hh₁ hl₁ hin₁ => ?_
    · rw [hx]
      exact h₀.fresh hr hf₀ (by omega) hc hfun
    have hoff : ClassLayout.fieldOffset j = 4 * (j + 1) := rfl
    rw [Memory.position, hoff] at hin₁
    refine ih (hf₀.trans hf₁) hcode (hl₁ ▸ hnew) hin₁ (fun s₂ hf₂ hh₂ hl₂ hin₂ => ?_)
      (h.follow hf₁)
    refine hu s₂ (hf₁.trans hf₂) (hh₂.trans hh₁) (hl₂.trans hl₁) ?_
    rwa [List.length_cons, Nat.add_comm fs.length 1, ← Nat.add_assoc]

theorem toNat_word_mul_four (n : Nat) : (Emit.word n * 4).toUInt32.toNat ≤ 4 * n := by
  have hfour : (4 : Int32).toUInt32.toNat = 4 := by decide
  rw [Int32.toUInt32_mul, UInt32.toNat_mul, Emit.word, address_ofNat, hfour]
  refine Nat.le_trans (Nat.mod_le _ _) ?_
  have hle := Nat.mod_le n (2 ^ 32)
  omega

/-- A new object, which lies where the heap pointer was. -/
theorem construct (h : w.Here t₀ b Q k lim s) (hserves : ∀ m < n, w.Serves m)
    (hsource : b.source ≠ []) (hp : w.Past b) (hr : w.Room s) (hstart : b.start ≤ a) {l : ClassLayout} (hl : l ∈ w.program.classes.layouts) {init : String}
    (hinit : l.target? initMethod = some init)
    (hcode : CodeAt (w.names b) b.code (Emit.constructCode l init) a a') (hlim : a' ≤ lim)
    (hgo : ∀ s', w.Follows b s s' → w.Room s' → w.Placed l s.heap →
      Trace.Until w.linked w.maxDepth Q R n (s'.on a' (Int32.ofNat s.heap :: S))) :
    Trace.Until w.linked w.maxDepth Q R n (s.on a S) := by
  obtain ⟨b₁, hat, rfl⟩ := Emit.codeAt_construct hcode
  have hle := Emit.codeAt_le hat.fields
  refine h.const (by omega) hat.words ?_
  refine h.alloc hr (by omega) (.inl hp) hat.alloc fun s₁ hb₁ hh₁ => ?_
  have h₁ := h.follow hb₁.follows
  refine h₁.setMade (by decide : _ = '#' :: ['n', 'e', 'w']) hat.declared (by omega) hat.keep
    fun s₂ hf₂ hh₂ hnew₂ => ?_
  have h₂ := h₁.follow hf₂
  refine h₂.localGet (by omega) hat.object fun y hy => ?_
  obtain rfl := Option.some.inj (hnew₂.symm.trans hy)
  refine h₂.const (by omega) hat.base ?_
  have hf₁ : w.Follows b s s₁ := hb₁.follows
  refine h₂.store (by omega) hat.tag
    (fun c hc hfun => h.fresh hr (hf₁.trans hf₂) (by omega) hc hfun)
    fun s₃ hf₃ hh₃ hl₃ hin₃ => ?_
  have h₃ := h₂.follow hf₃
  refine h.initFields hr ((hf₁.trans hf₂).trans hf₃) rfl hat.fields (by omega) (hl₃ ▸ hnew₂) hin₃
    fun s₄ hf₄ hh₄ hl₄ hin₄ => ?_
  have h₄ := h₃.follow hf₄
  have hnew₄ : s₄.thread.frame.locals[(w.names b).slot Emit.newName]?
      = some (Int32.ofNat s.heap) := by rw [hl₄, hl₃, hnew₂]
  -- All words of the object have been written, so it lies in the memory.
  have hplaced : w.Placed l s.heap := by
    intro hf hs
    obtain ⟨hbase, htop⟩ := hr hf hs
    rw [address_ofNat, Nat.mod_eq_of_lt (Nat.lt_of_le_of_lt htop hs)] at hin₄
    have hwords : l.words = l.fields.length + 1 := rfl
    exact ⟨hbase, by omega⟩
  have hr₄ : w.Room s₄ := by
    intro hf hs
    obtain ⟨hbase, htop⟩ := hplaced hf hs
    have hgrow := toNat_word_mul_four l.words
    rw [hh₄, hh₃, hh₂, hh₁]
    omega
  refine h₄.localGet (by omega) hat.receiver fun y hy => ?_
  obtain rfl := Option.some.inj (hnew₄.symm.trans hy)
  refine h₄.invokeInit hserves hsource hp hr₄ (by omega) (by omega) hl hinit hat.call fun s₅ y hb₅ hr₅ => ?_
  have h₅ := h₄.follow hb₅.follows
  refine h₅.drop (by omega) hat.drop ?_
  refine h₅.localGet (by omega) hat.result fun y hy => ?_
  have hlocals : s₅.thread.frame.locals = s₄.thread.frame.locals := by
    rw [hb₅.frame]
    rfl
  rw [hlocals] at hy
  obtain rfl := Option.some.inj (hnew₄.symm.trans hy)
  exact hgo s₅ (((hf₁.trans hf₂).trans (hf₃.trans hf₄)).trans hb₅.follows) hr₅ hplaced

/-! ### Calls -/

/-- A call of a nested function links its frame to the caller's. -/
theorem links (h : w.Here t₀ b Q k lim s) {outer : List FunDef} {d : FunDef} {id : FunId}
    (hd : w.program.Nest outer d) (hid : d.id = some id) {l : Level} {lv : List Level}
    (hlevels : b.levels = l :: lv) (hparent : (w.program.record d).parent = some l.id)
    {us : List VarId}
    (hpass : List.Forall₂ ((t₀.facts w.program.classes).Passes b.levels) us
      (w.program.record d).captures)
    {i : ExprInfo} {callee : Ident} {args : List Expr} {m m' : Nat}
    (hocc : Expr.OccursIn b.source (.call i callee args (some (.function id us))))
    (hat : Emit.ExprAt w.program (w.names b) b.code (.call i callee args (some (.function id us)))
      m a m' a') {cs : List Int32}
    (hcs : List.Forall₂ (fun u x => s.thread.frame.locals[w.program.slot u]? = some x) us cs)
    {F : Frame} (hF : ∀ j x, cs[j]? = some x →
      F.locals[(w.program.record d).params.length + j]? = some x)
    {c : Trace.Call} (hc : s.calls.head? = some c) :
    w.Links d F c (s.on a' S).thread.frame l.id := by
  obtain ⟨p, o, hw⟩ := h.compiled
  obtain ⟨outer', e, he, heid, hname, hvars, hsource⟩ := h.body.inner l lv hlevels
  obtain ⟨c', as, hcalls, hfun⟩ := h.steady.function
  obtain ⟨id', hid', -, hf, -⟩ := hw.checked.record_ok hd
  rw [hcalls] at hc
  cases hc
  refine ⟨outer', e, he, heid, hname ▸ hfun, b.func, h.body.mem, h.body.name.trans hname,
    i, callee, args, id, us, hid, hsource ▸ hocc, ⟨m, a, m', ?_⟩, ?_⟩
  · rw [Trace.on_thread, Thread.on_code, Thread.on_position, h.steady.code]
    exact hat
  · refine List.forall₂_iff_get.2 ⟨hpass.length_eq, fun j hj hj' => ?_⟩
    have hpassed := (List.forall₂_iff_get.1 hpass).2 j hj hj'
    have hcell := Emit.cell_of_passes hw.checked hf.record hparent (List.get_mem _ ⟨j, hj'⟩) hpassed
    obtain ⟨-, hown, -, hhome⟩ := hpassed
    have hjc : j < cs.length := hcs.length_eq ▸ hj
    have hx := (List.forall₂_iff_get.1 hcs).2 j hj hjc
    refine ⟨hvars ▸ h.body.own _ _ hown, hcell.2, ?_, cs.get ⟨j, hjc⟩, ?_, hx⟩
    · rw [← hw.checked.vars_eq]
      exact hhome
    · have hslot : w.program.slot ((w.program.record d).captures.get ⟨j, hj'⟩).inner
          = (w.program.record d).params.length + j :=
        hw.slot_capture hd (List.getElem?_eq_getElem hj')
      rw [hslot]
      exact hF j _ (List.getElem?_eq_getElem hjc)

/-- A call of a function by name, behind its arguments. -/
theorem callFunction (h : w.Here t₀ b Q k lim s) (hserves : ∀ m < n, w.Serves m) (hp : w.Past b)
    (hr : w.Room s) {e : ExprInfo} {callee : Ident} {args : List Expr} {id : FunId}
    {us : List VarId} {m m' b₁ b₂ : Nat} (hstart : b.start ≤ b₂)
    (hocc : Expr.OccursIn b.source (.call e callee args (some (.function id us))))
    (hat : Emit.ExprAt w.program (w.names b) b.code (.call e callee args (some (.function id us)))
      m i m' a')
    (hcells : CodeAt (w.names b) b.code (us.map fun v => .localGet (w.program.var v).name) b₁ b₂)
    (hcall : CodeAt (w.names b) b.code [.call (w.program.function id).emitted] b₂ a')
    (hlim : a' ≤ lim) {vs : List Int32} (hvs : vs.length = args.length)
    (hgo : w.GoesOn b Q R n s a' S) :
    Trace.Until w.linked w.maxDepth Q R n (s.on b₁ (vs ++ S)) := by
  obtain ⟨p, o, hw⟩ := h.compiled
  obtain ⟨hop, -, rfl⟩ := codeAt_singleton.1 hcall
  have hsource := hocc.source_ne_nil
  obtain ⟨t, he⟩ := h.exprOk hocc
  simp only [ExprOk] at he
  obtain ⟨-, f, hf, -, hargs, hcaptures⟩ := he
  have hlen := argsOk_length hargs
  have hemitted : (w.program.function id).emitted = f.emitted := by
    rw [Emit.function_eq hw.checked hf]
  have hown : ∀ u ∈ us, u ∈ b.vars := by
    obtain ⟨-, rfl⟩ | ⟨l, lv, -, -, hpass⟩ := hcaptures
    · exact fun u hu => absurd hu List.not_mem_nil
    · intro u hu
      obtain ⟨c, -, -, hown, -⟩ := exists_of_forall₂ hpass hu
      exact h.body.own _ _ hown
  refine h.loadCells hcells (by omega) hown fun cs hcs => ?_
  obtain ⟨hroot, hparent, hone⟩ | ⟨outer, d, hd, hid, hrecord⟩ := hw.checked.function_cases hf
  · obtain ⟨-, rfl⟩ | ⟨l, lv, -, hp', -⟩ := hcaptures
    · obtain rfl : cs = [] := by cases hcs; rfl
      obtain ⟨x, rfl⟩ := List.length_eq_one_iff.1 ((hvs.trans hlen).trans hone)
      have hop' : b.code[b₂]?
          = some (.call (w.module.index (methodTarget rootClass initMethod))) := by
        rw [← hroot, ← hemitted]
        exact hop
      refine h.root hr (by omega) (.inl hp) hop' fun s' hb hh => ?_
      exact hgo s' 0 hb.follows (hr.same hh)
    · cases hparent.symm.trans hp'
  · have hop' : b.code[b₂]? = some (.call (w.module.index (w.program.emitted d))) := by
      rw [CheckedProgram.emitted, hid]
      exact hop
    have hparams : f.params.length = f.paramTypes.length := by
      obtain ⟨id', hid', -, hfo, -⟩ := hw.checked.record_ok hd
      rw [← hrecord]
      exact hfo.params_length
    have hvs' : vs.length = f.params.length := (hvs.trans hlen).trans hparams.symm
    have hcount : us.length = f.captures.length := by
      obtain ⟨hparent, rfl⟩ | ⟨l, lv, -, -, hpass⟩ := hcaptures
      · rw [hw.checked.nest.state.orphans id f hf hparent]
        rfl
      · exact hpass.length_eq
    have hargs' : (cs.reverse ++ vs).length = (w.program.record d).totalArity := by
      rw [List.length_append, List.length_reverse, ← hcs.length_eq, hvs', hrecord, hcount,
        Function.totalArity, Nat.add_comm]
    rw [← List.append_assoc]
    refine h.invoke hserves hsource hp hr hstart (by omega) hd hop' hargs' (fun F hF q hq c hc => ?_)
      fun s' v hb hr' => hgo s' v hb.follows hr'
    obtain ⟨hparent, -⟩ | ⟨l, lv, hlevels, hparent, hpass⟩ := hcaptures
    · rw [hrecord, hparent] at hq
      cases hq
    · rw [hrecord, hparent] at hq
      cases hq
      refine h.links hd hid hlevels (hrecord.symm ▸ hparent) (hrecord.symm ▸ hpass) hocc hat hcs (fun j x hx => ?_) hc
      have hlt := (List.getElem?_eq_some_iff.1 hx).1
      rw [hrecord, ← hvs']
      rw [hF _ (by rw [List.length_append, List.length_reverse]; omega), List.reverse_append,
        List.reverse_reverse, List.getElem?_append_right (by simp), List.length_reverse,
        Nat.add_sub_cancel_left, hx]

/-- A call of a method, behind its receiver and its arguments.  A signature that is not there has
no parameters, and no method has none. -/
theorem invokeMethod (h : w.Here t₀ b Q k lim s) (hserves : ∀ m < n, w.Serves m)
    (hsource : b.source ≠ []) (hp : w.Past b) (hr : w.Room s) (hstart : b.start ≤ i) (hlim : i < lim) {args : List Int32} {count : Nat}
    (hop : b.code[i]? = some (.callIndirect ((w.names b).arity (Code.signatureName count))))
    (hargs : args.length = count) (hgo : w.GoesOn b Q R n s (i + 1) S) :
    Trace.Until w.linked w.maxDepth Q R n (s.on i (v :: (args ++ S))) := by
  obtain ⟨p, o, hw⟩ := h.compiled
  by_cases hsig : (w.module.type? (Code.signatureName count)).isSome
  · have harity : (w.names b).arity (Code.signatureName count) = count :=
      hw.generated.arity_eq hsig b.func
    rw [harity, ← hargs] at hop
    exact h.invokeThrough hserves hsource hp hr hstart hlim hop fun s' x hb hr' => hgo s' x hb.follows hr'
  · have harity : (w.names b).arity (Code.signatureName count) = 0 := by
      have hnone := Option.not_isSome_iff_eq_none.1 hsig
      show ((w.module.type? _).map (·.params)).getD 0 = 0
      rw [hnone]
      rfl
    rw [harity] at hop
    refine h.callIndirect hlim [] hop fun m hm l j F depth hj hF => ?_
    obtain ⟨f, hf, hlen, -⟩ := Thread.newFrame_ok hF
    obtain rfl | ⟨d, hd, hpos, rfl⟩ := hw.table_cases hj
    · obtain ⟨-, y, hfun⟩ := hw.root_function
      cases hfun.symm.trans hf
      cases hlen
    · obtain ⟨-, g, arr, -, hparams, hfun⟩ := hw.definition_function hd
      cases hfun.symm.trans hf
      have hzero : g.params.length = 0 := hlen.symm
      rw [hparams, Function.totalArity] at hzero
      omega

/-! ### Expressions -/

mutual

/-- An expression runs soundly and leaves a word. -/
theorem expr {s : Trace} {S : List Int32} {a a' : Nat} (h : w.Here t₀ b Q k lim s)
    (hserves : ∀ m < n, w.Serves m) (hp : w.Past b) (hr : w.Room s) {e : Expr} {m m' : Nat}
    (hocc : Expr.OccursIn b.source e)
    (hat : Emit.ExprAt w.program (w.names b) b.code e m a m' a') (hstart : b.start ≤ a)
    (hlim : a' ≤ lim) (hgo : w.GoesOn b Q R n s a' S) :
    Trace.Until w.linked w.maxDepth Q R n (s.on a S) := by
  cases e with
  | literal i v =>
    obtain ⟨hcode, -⟩ := hat
    obtain ⟨hop, -, rfl⟩ := codeAt_singleton.1 hcode
    exact h.const (by omega) hop (hgo s _ h.refl hr)
  | name i x v =>
    obtain ⟨u, -, hcode, -⟩ := hat
    exact h.loadVar hcode hlim fun v => hgo s v h.refl hr
  | unary i op e =>
    have he := hocc.part List.mem_cons_self
    cases op with
    | neg =>
      obtain ⟨b₁, b₂, hzero, hat, hsub⟩ := hat
      obtain ⟨hop, -, rfl⟩ := codeAt_singleton.1 hzero
      obtain ⟨hop', -, rfl⟩ := codeAt_singleton.1 hsub
      have hle := Emit.exprAt_le hat
      refine h.const (by omega) hop ?_
      refine expr h hserves hp hr he hat (by omega) (by omega) fun s₁ v hf₁ hr₁ => ?_
      exact (h.follow hf₁).binary (by omega) hop' fun v _ => hgo s₁ v hf₁ hr₁
    | not =>
      obtain ⟨b₁, hat, hnot⟩ := hat
      obtain ⟨hop, -, rfl⟩ := codeAt_singleton.1 hnot
      refine expr h hserves hp hr he hat hstart (by omega) fun s₁ v hf₁ hr₁ => ?_
      exact (h.follow hf₁).eqz (by omega) hop fun v => hgo s₁ v hf₁ hr₁
  | binary i op l r =>
    have hl := hocc.part List.mem_cons_self
    have hre := hocc.part (List.mem_cons_of_mem _ List.mem_cons_self)
    obtain ⟨n₁, b₁, b₂, hatl, hatr, hcode⟩ := hat
    obtain ⟨hop, -, rfl⟩ := codeAt_singleton.1 hcode
    have hle := Emit.exprAt_le hatl
    have hle' := Emit.exprAt_le hatr
    refine expr h hserves hp hr hl hatl hstart (by omega) fun s₁ v hf₁ hr₁ => ?_
    refine expr (h.follow hf₁) hserves hp hr₁ hre hatr (by omega) (by omega) fun s₂ v' hf₂ hr₂ => ?_
    exact ((h.follow hf₁).follow hf₂).binary (by omega) hop fun v _ =>
      hgo s₂ v (hf₁.trans hf₂) hr₂
  | call i callee args target =>
    cases target with
    | none => exact hat.elim
    | some target =>
      cases target with
      | function id us =>
        have hcall := hat
        obtain ⟨b₁, b₂, hats, hcells, hcode⟩ := hcall
        have hle := Emit.codeAt_le hcells
        have hle' := Emit.codeAt_le hcode
        have hle'' := Emit.exprsAt_le hats
        refine exprs h hserves hp hr (fun _ he => hocc.part he) hats hstart (by omega)
          fun s₁ vs hlen hf₁ hr₁ => ?_
        exact (h.follow hf₁).callFunction hserves hp hr₁ (by omega) hocc hat hcells hcode hlim hlen
          (hgo.follow hf₁)
      | construct y =>
        obtain ⟨l, init, hl, hinit, hcode, -⟩ := hat
        exact h.construct hserves hocc.source_ne_nil hp hr hstart (ClassTable.get?_mem hl).1 hinit hcode hlim
          fun s' hf hr' _ => hgo s' _ hf hr'
      | builtin f =>
        obtain ⟨t, he⟩ := h.exprOk hocc
        simp only [ExprOk] at he
        obtain ⟨-, -, harity, -⟩ := he
        obtain ⟨b₁, is, hats, his, hcode⟩ := hat
        have hle := Emit.codeAt_le hcode
        refine exprs h hserves hp hr (fun _ he => hocc.part he) hats hstart (by omega)
          fun s₁ vs hlen hf₁ hr₁ => ?_
        exact (h.follow hf₁).builtin hr₁ his hcode hlim (hlen.trans harity) (hgo.follow hf₁)
  | field i o f =>
    have ho := hocc.part List.mem_cons_self
    have hwhole := hat
    obtain ⟨l, j, d, b₁, hl, hfield, hato, hcode⟩ := hat
    obtain ⟨hop, -, hrest⟩ := codeAt_cons.1 hcode
    obtain ⟨hop', -, rfl⟩ := codeAt_singleton.1 hrest
    refine expr h hserves hp hr ho hato hstart (by omega) fun s₁ v hf₁ hr₁ => ?_
    refine (h.follow hf₁).guard (by omega) hop ⟨o, a, hstart, .read hocc hwhole hato hop⟩ fun _ => ?_
    exact (h.follow hf₁).load (by omega) hop' fun v => hgo s₁ v hf₁ hr₁
  | method i o x args =>
    have ho := hocc.part List.mem_cons_self
    have hargs := fun e he => hocc.part (List.mem_cons_of_mem o (a := e) he)
    have hwhole := hat
    obtain ⟨l, slot, e, n₁, b₁, b₂, b₃, hl, hmethod, hato, hguard, hats, hcode⟩ := hat
    obtain ⟨hop₁, -, hrest⟩ := codeAt_cons.1 hguard
    obtain ⟨hop₂, hmem, hrest⟩ := codeAt_cons.1 hrest
    obtain ⟨hop₃, -, rfl⟩ := codeAt_singleton.1 hrest
    obtain ⟨hop₄, -, hrest⟩ := codeAt_cons.1 hcode
    obtain ⟨hop₅, -, hrest⟩ := codeAt_cons.1 hrest
    obtain ⟨hop₆, -, hrest⟩ := codeAt_cons.1 hrest
    obtain ⟨hop₇, -, hrest⟩ := codeAt_cons.1 hrest
    obtain ⟨hop₈, -, rfl⟩ := codeAt_singleton.1 hrest
    have hle := Emit.exprAt_le hato
    have hle' := Emit.exprsAt_le hats
    refine expr h hserves hp hr ho hato hstart (by omega) fun s₁ v hf₁ hr₁ => ?_
    have h₁ := h.follow hf₁
    refine h₁.guard (by omega) hop₁ ⟨o, a, hstart, .call hocc hwhole hato hop₁⟩ fun _ => ?_
    refine h₁.setMade (Emit.toList_append_repr (by decide : _ = '#' :: ['r', 'e', 'c', 'v']) n₁)
      hmem (by omega) hop₂ fun s₂ hf₂ hh₂ _ => ?_
    have h₂ := h₁.follow hf₂
    refine h₂.localGet (by omega) hop₃ fun v₂ _ => ?_
    refine exprs h₂ hserves hp (hr₁.same hh₂) hargs hats (by omega) (by omega)
      fun s₃ vs hlen hf₃ hr₃ => ?_
    have h₃ := h₂.follow hf₃
    refine h₃.localGet (by omega) hop₄ fun v₃ _ => h₃.load (by omega) hop₅ fun v₄ => ?_
    refine h₃.const (by omega) hop₆ ?_
    refine h₃.binary (by omega) hop₇ fun v₅ _ => ?_
    have hargs' : vs ++ (v₂ :: S) = (vs ++ [v₂]) ++ S := by rw [List.append_assoc]; rfl
    rw [hargs']
    refine h₃.invokeMethod hserves hocc.source_ne_nil hp hr₃ (by omega) (by omega) hop₈ (by rw [List.length_append, hlen]; rfl) ?_
    exact hgo.follow ((hf₁.trans hf₂).trans hf₃)

/-- Expressions run soundly, one after the other, and leave as many words. -/
theorem exprs {s : Trace} {S : List Int32} {a a' : Nat} (h : w.Here t₀ b Q k lim s)
    (hserves : ∀ m < n, w.Serves m) (hp : w.Past b) (hr : w.Room s) {es : List Expr} {m m' : Nat}
    (hes : ∀ e ∈ es, Expr.OccursIn b.source e)
    (hat : Emit.ExprsAt w.program (w.names b) b.code es m a m' a') (hstart : b.start ≤ a)
    (hlim : a' ≤ lim) (hu : ∀ s' vs, vs.length = es.length → w.Follows b s s' → w.Room s' →
      Trace.Until w.linked w.maxDepth Q R n (s'.on a' (vs ++ S))) :
    Trace.Until w.linked w.maxDepth Q R n (s.on a S) := by
  cases es with
  | nil =>
    obtain ⟨rfl, -⟩ := hat
    exact hu s [] rfl h.refl hr
  | cons e es =>
    obtain ⟨n₁, b₁, hate, hat⟩ := hat
    obtain ⟨he, hes⟩ := List.forall_mem_cons.1 hes
    have hle := Emit.exprAt_le hate
    have hle' := Emit.exprsAt_le hat
    refine expr h hserves hp hr he hate hstart (by omega) fun s₁ v hf₁ hr₁ => ?_
    refine exprs (h.follow hf₁) hserves hp hr₁ hes hat (by omega) hlim fun s₂ vs hlen hf₂ hr₂ => ?_
    have hall := hu s₂ (vs ++ [v]) (by rw [List.length_append, hlen]; rfl) (hf₁.trans hf₂) hr₂
    rwa [List.append_assoc] at hall

end

end Here

end Setting

end ObjLang
