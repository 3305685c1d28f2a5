import ObjLang.Proofs.Machine.Meant.Access
import ObjLang.Proofs.Machine.Typed.Run

/-!
# ObjLang.Proofs.Machine.Meant.Lookup — what calls and names lead to

A function is found by its number, and a method on the way up from the class of the object: it is
the one that the dispatch table of the class leads to.  A name in a nested function denotes the same
variable as the name that is handed on to it.
-/

namespace ObjLang

open Check Check.Facts

/-- A search for a key finds what has the key, if nothing else has it. -/
theorem find?_key {α β : Type} [BEq β] [LawfulBEq β] {as : List α} {f : α → β} {a : α} (ha : a ∈ as)
    (hinj : ∀ a' ∈ as, f a' = f a → a' = a) : as.find? (f · == f a) = some a := by
  cases hfind : as.find? (f · == f a) with
  | none => exact absurd (beq_self_eq_true (f a)) (List.find?_eq_none.1 hfind a ha)
  | some a' =>
    have heq : (f a' == f a) = true := List.find?_some (p := fun b => f b == f a) hfind
    exact congrArg some (hinj a' (List.mem_of_find?_eq_some hfind) (eq_of_beq heq))

namespace CheckedOk

variable {p : Program} {c : CheckedProgram} {s : State} {outer : List FunDef} {d : FunDef}
  {id : FunId}

/-! ### Functions -/

/-- The number of a function is none of those of the functions around it. -/
theorem level_id_lt (h : CheckedOk p c s) (hd : c.Nest outer d) (hid : d.id = some id) :
    ∀ e ∈ outer, (c.level e).id.index < id.index := by
  induction hd generalizing id with
  | method _ _ => exact fun _ he => absurd he List.not_mem_nil
  | function _ => exact fun _ he => absurd he List.not_mem_nil
  | @nested outer e d he hd ih =>
    obtain ⟨i, hi, -, -, hlevel⟩ := h.record_ok he
    obtain ⟨id', hid', -, hf, -⟩ := h.record_ok (.nested he hd)
    cases hid.symm.trans hid'
    have hparent : (c.record d).parent = some i := by
      rw [hf.parent, List.map_cons, List.head?_cons, Option.map_some, hlevel]
      rfl
    have hlt := h.nest.state.parents id _ i hf.record hparent
    refine List.forall_mem_cons.2 ⟨?_, fun e' he' => Nat.lt_trans (ih hi e' he') hlt⟩
    rw [hlevel]
    exact hlt

/-! ### Variables of the module -/

/-- A class is found by its name, with its methods. -/
theorem find_class (h : CheckedOk p c s) {k : ClassDef} (hk : k ∈ p.classes) :
    ∃ k' ∈ c.program.classes, c.program.classes.find? (·.name.name == k.name.name) = some k' ∧
      k'.name = k.name ∧ List.Forall₂ FunDef.Binds k.methods k'.methods := by
  obtain ⟨k', hk', hname, -, hms⟩ := exists_of_forall₂ h.sameClasses hk
  refine ⟨k', hk', ?_, hname, hms⟩
  rw [← hname]
  exact find?_key hk' fun e he heq =>
    List.inj_on_of_nodup_map (h.class_names ▸ h.laid.classNames) he hk' heq

/-- The nearest class that provides a method has it in its definition, or it is the root class. -/
theorem nearest?_cases (h : CheckedOk p c s) {m k owner : String}
    (hp : ClassDef.Provides p.classes m k owner) {n : Nat} {before after : List ClassLayout}
    {l : ClassLayout} (hl : c.classes.layouts = before ++ l :: after) (hk : l.name = k)
    (hn : before.length ≤ n) :
    (m = initMethod ∧ owner = rootClass ∧ c.nearest? m n k = none) ∨
      ∃ e ∈ c.program.classes, ∃ d ∈ e.methods, e.name.name = owner ∧ d.name.name = m ∧
        c.nearest? m n k = some d := by
  -- A class of the program is not the first of the layouts.
  have hlater : ∀ {n : Nat} {before after : List ClassLayout} {l : ClassLayout},
      c.classes.layouts = before ++ l :: after → before.length ≤ n →
      ∀ d ∈ p.classes, d.name.name = l.name → ∃ j, n = j + 1 := by
    intro n before after l hl hn d hd heq
    cases n with
    | succ j => exact ⟨j, rfl⟩
    | zero =>
      obtain rfl := List.length_eq_zero_iff.1 (Nat.le_zero.1 hn)
      have hroot := h.laid.root
      rw [hl, List.nil_append, List.head?_cons, Option.some.injEq] at hroot
      exact absurd (heq.trans (congrArg ClassLayout.name hroot)) (h.laid.ne_root hd)
  induction hp generalizing n before after l with
  | root hm =>
    have hmem : l ∈ c.classes.layouts := hl ▸ List.mem_append_right _ List.mem_cons_self
    refine .inl ⟨hm, rfl, ?_⟩
    cases n with
    | zero => rfl
    | succ n =>
      have hnone : c.program.classes.find? (·.name.name == rootClass) = none := by
        refine List.find?_eq_none.2 fun e he heq => ?_
        have hmem' := List.mem_map_of_mem (f := fun e : ClassDef => e.name.name) he
        rw [h.class_names] at hmem'
        obtain ⟨e', he', hname⟩ := List.mem_map.1 hmem'
        exact h.laid.ne_root he' (hname.trans (eq_of_beq heq))
      have hget : c.classes.get? rootClass = some l := h.laid.get?_eq_some.2 ⟨hmem, hk⟩
      have hsuper : l.superclass = none := by
        cases h.laid.laid l hmem with
        | root => rfl
        | extend _ _ hd _ hx => exact absurd ((ClassTable.extend_head hx).1.symm.trans hk) (h.laid.ne_root hd)
      rw [CheckedProgram.nearest?, hnone, hget]
      simp only [Option.bind_none, Option.none_or, Option.bind_eq_bind, Option.bind_some, hsuper]
  | @own d hd hdef =>
    obtain ⟨j, rfl⟩ := hlater hl hn d hd hk.symm
    obtain ⟨e, he, hfind, hname, hms⟩ := h.find_class hd
    obtain ⟨f, hf, hfm⟩ := List.mem_map.1 hdef
    obtain ⟨g, hg, hb⟩ := exists_of_forall₂ hms hf
    have hnames : (e.methods.map (·.name.name)).Nodup := h.methodNames he
    have hgm : g.name.name = m := by rw [hb.name, hfm]
    have hmethod : e.methods.find? (·.name.name == m) = some g := by
      rw [← hgm]
      exact find?_key hg fun g' hg' heq => List.inj_on_of_nodup_map hnames hg' hg heq
    refine .inr ⟨e, he, g, hg, congrArg Ident.name hname, hgm, ?_⟩
    rw [CheckedProgram.nearest?, hfind, Option.bind_some, hmethod, Option.some_or]
  | @inherited d owner hd hdef _ ih =>
    have hmem : l ∈ c.classes.layouts := hl ▸ List.mem_append_right _ List.mem_cons_self
    obtain ⟨j, rfl⟩ := hlater hl hn d hd hk.symm
    obtain ⟨e, -, hfind, -, hms⟩ := h.find_class hd
    have hmethod : e.methods.find? (·.name.name == m) = none := by
      refine List.find?_eq_none.2 fun g hg heq => hdef ?_
      obtain ⟨f, hf, hb⟩ := exists_of_forall₂ hms.flip hg
      exact List.mem_map.2 ⟨f, hf, by rw [← hb.name]; exact eq_of_beq heq⟩
    have hsuper := h.laid.superclass_eq hd (h.laid.get?_eq_some.2 ⟨hmem, hk⟩)
    obtain ⟨q, hq, hqs⟩ := h.laid.parents before l after hl _ hsuper
    obtain ⟨before', between, rfl⟩ := List.append_of_mem hq
    have hl' : c.classes.layouts = before' ++ q :: (between ++ l :: after) := by
      rw [hl, List.append_assoc, List.cons_append]
    have hle : before'.length ≤ j := by
      rw [List.length_append, List.length_cons] at hn
      omega
    have hget : c.classes.get? d.name.name = some l := h.laid.get?_eq_some.2 ⟨hmem, hk⟩
    have hstep : c.nearest? m (j + 1) d.name.name = c.nearest? m j d.superclass.name := by
      rw [CheckedProgram.nearest?, hfind, hget]
      simp only [Option.bind_eq_bind, Option.bind_some, hmethod, Option.none_or, hsuper]
    rw [hstep]
    exact ih hl' hqs hle

/-- There are no more classes before another one than a program has. -/
theorem before_length_le (h : CheckedOk p c s) {before after : List ClassLayout} {l : ClassLayout}
    (hl : c.classes.layouts = before ++ l :: after) :
    before.length ≤ c.program.classes.length := by
  have hsub : c.classes.layouts.map ClassLayout.name
      ⊆ rootClass :: c.program.classes.map (·.name.name) := by
    intro x hx
    obtain ⟨e, he, rfl⟩ := List.mem_map.1 hx
    cases h.laid.laid e he with
    | root => exact List.mem_cons_self
    | extend _ _ hd _ hx =>
      rw [(ClassTable.extend_head hx).1, h.class_names]
      exact List.mem_cons_of_mem _ (List.mem_map_of_mem (f := fun d : ClassDef => d.name.name) hd)
  have hle := (h.laid.names.subperm hsub).length_le
  rw [hl] at hle
  simp only [List.length_map, List.length_append, List.length_cons] at hle
  omega

/-- The method that an object runs is that of its dispatch table. -/
theorem method?_cases (h : CheckedOk p c s) {l : ClassLayout} (hl : l ∈ c.classes.layouts)
    {m : String} {e : MethodEntry} (he : l.methods.find? (·.name == m) = some e) :
    (m = initMethod ∧ e.target = methodTarget rootClass initMethod ∧ c.method? m l.name = none) ∨
      ∃ d, c.Nest [] d ∧ c.emitted d = e.target ∧ c.method? m l.name = some d := by
  obtain ⟨before, after, hsplit⟩ := List.append_of_mem hl
  obtain ⟨howner, htarget⟩ := ClassTable.Laid.provides h.laid (h.laid.laid l hl) he
  obtain ⟨rfl, hroot, hnone⟩ | ⟨k, hk, d, hd, hkn, rfl, hsome⟩ :=
    h.nearest?_cases ((howner e.owner).2 rfl) hsplit rfl (h.before_length_le hsplit)
  · exact .inl ⟨rfl, by rw [htarget, hroot], hnone⟩
  · refine .inr ⟨d, .method hk hd, ?_, hsome⟩
    rw [h.emitted_method hk hd, htarget, methodTarget, hkn]

/-! ### Objects -/

theorem field_names_nodup (h : CheckedOk p c s) {l : ClassLayout} (hl : l ∈ c.classes.layouts) :
    (l.fields.map FieldLayout.name).Nodup :=
  (h.laid.indexed hl).fields.nodup

/-! ### Variables -/

variable {sc : CallChain} {k : Nat} {u v : VarId} {pl : Place}

/-- What a variable of a function stands for stands for itself. -/
theorem home_home (h : CheckedOk p c s) {r : Variable} (hr : s.vars.get? v = some r)
    (hg : r.isGlobal = false) : c.vars.home (c.vars.home v) = c.vars.home v := by
  obtain ⟨q, hq, -, hc, -⟩ := h.nest.state.get?_home hr hg
  rw [h.vars_eq] at hq
  exact Variables.home_of_not_capture (Variables.get_eq_of_get? hq ▸ hc)

/-- Variables that stand for one variable denote the same, in calls of other functions around. -/
theorem place?_of_home (hu : (c.var u).isGlobal = false) (hv : (c.var v).isGlobal = false)
    (heq : c.vars.home u = c.vars.home v) (hpl : c.place? sc u = some pl)
    (hid : ∀ e ∈ sc, e.1 ≠ id) : c.place? ((id, k) :: sc) v = some pl := by
  rw [CheckedProgram.place?, hu, if_neg Bool.false_ne_true] at hpl
  simp only [Option.bind_eq_bind, Option.bind_eq_some_iff] at hpl
  obtain ⟨owner, howner, a, ha, hpl⟩ := hpl
  have hne : (owner == id) = false := by
    obtain ⟨before, after, rfl, -⟩ := List.lookup_eq_some_iff.1 ha
    exact beq_eq_false_iff_ne.2 (hid _ (List.mem_append_right _ List.mem_cons_self))
  rw [CheckedProgram.place?, hv, if_neg Bool.false_ne_true, ← heq, howner]
  simp only [Option.bind_eq_bind, Option.bind_some, List.lookup_cons, hne, ha]
  exact hpl

end CheckedOk

namespace Compiled

variable {p : Program} {c : CheckedProgram} {t₀ : State} {o : Options} {m : Code.Module}
  {L : LinkedModule} {outer : List FunDef} {d : FunDef} {v : VarId} {id : FunId} {k : Nat}
  {sc : CallChain}

/-- A parameter or a variable of a definition is one of the call of the definition. -/
theorem place?_own (h : Compiled p c t₀ o m L) (hd : c.Nest outer d) (hid : d.id = some id)
    (hv : v ∈ (c.record d).params ++ (c.record d).locals) :
    c.place? ((id, k) :: sc) v = some ⟨some k, v⟩ := by
  have hmem := mem_slots_of_own hv
  obtain ⟨hg, howner⟩ := h.var_owner hd hmem
  have hhome : c.vars.home v = v := Variables.home_of_not_capture (h.own_var hd hv)
  rw [CheckedProgram.place?, hg, if_neg Bool.false_ne_true, hhome, howner, hid]
  simp only [Option.bind_eq_bind, Option.bind_some, List.lookup_cons, beq_self_eq_true]
  rfl

end Compiled

namespace Setting

variable {w : Setting} {p : Program} {o : Options} {t₀ : State} {sc : CallChain} {I : Image}
  {σ : World} {bs : List Block} {st : Store} {x : Int32} {u v : VarId} {id : FunId} {k : Nat}

/-- A word that is the address of the cell of what a variable denotes is one of a cell of the
ledger. -/
theorem CellShows.cellOf (h : w.CellShows sc I x v) (hc : CheckedOk p w.program t₀)
    (hm : w.Mirrors I σ bs st) {r : Variable} (hr : t₀.vars.get? v = some r)
    (hg : r.isGlobal = false) : w.CellOf bs x v := by
  obtain ⟨pl, a, q, hpl, hty, -, -, hq, rfl⟩ := h
  have hhome : pl.var = w.program.vars.home v := by
    rw [CheckedProgram.place?, Emit.var_eq hc hr, hg, if_neg Bool.false_ne_true] at hpl
    simp only [Option.bind_eq_bind, Option.bind_eq_some_iff] at hpl
    obtain ⟨owner, -, b, -, hpl⟩ := hpl
    cases hpl
    rfl
  refine ⟨⟨q, .cell pl.var⟩, (hm.cell a pl.var q hq).1, pl.var, rfl, rfl, ?_, hty⟩
  rw [hhome, hc.home_home hr hg]

/-- The cell of a variable is the cell of every variable in a nested function that stands for the
same one. -/
theorem CellShows.of_home (h : w.CellShows sc I x u) (hu : (w.program.var u).isGlobal = false)
    (hv : (w.program.var v).isGlobal = false)
    (heq : w.program.vars.home u = w.program.vars.home v)
    (hty : w.program.typeOf u = w.program.typeOf v) (hid : ∀ e ∈ sc, e.1 ≠ id) :
    w.CellShows ((id, k) :: sc) I x v := by
  obtain ⟨pl, a, q, hpl, hty', href, ha, hq, hx⟩ := h
  exact ⟨pl, a, q, CheckedOk.place?_of_home hu hv heq hpl hid, hty'.trans hty, href, ha, hq, hx⟩

end Setting

end ObjLang
