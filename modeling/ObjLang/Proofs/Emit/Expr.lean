import ObjLang.Proofs.Check.Program
import ObjLang.Proofs.Emit.State

/-!
# ObjLang.Proofs.Emit.Expr — the code of checked expressions

Code generation on a checked expression gives straight-line code.  All its names lead somewhere once
the function and the module are complete, and wherever this code lies, it lies there part by part.
-/

namespace ObjLang.Emit

open Check Check.Facts
open Code (Instr)

/-- A module in which the functions and variables of a program have their names. -/
structure Named (c : CheckedProgram) (m : Code.Module) : Prop where
  functions : ∀ (id : FunId) f, c.functions[id.index]? = some f → f.emitted ∈ m.functionNames
  globals : ∀ d ∈ c.program.vars, d.var.name.name ∈ m.globals.map (·.name)
  hosts : ∀ x ∈ ["#print_num", "#print_bool", "#print_none", "#abs", "#min", "#max", "#pow",
    checkInitName], x ∈ m.functionNames
  alloc : allocName ∈ m.functionNames

/-- A function and a module that have all that was added so far. -/
structure Within (m : Code.Module) (f : Code.Func) (s : State) : Prop where
  names : ∀ x ∈ s.function.names, x ∈ f.params ++ f.locals
  types : ∀ t ∈ s.module.types, (m.type? t.name).isSome = true
  signed : Signed s.module.types

theorem Within.before {m : Code.Module} {f : Code.Func} {s s' : State} (h : Within m f s')
    (he : Emits s s') : Within m f s :=
  ⟨fun x hx => h.names x (he.function.mem hx), fun t ht => h.types t (he.types t ht),
    fun t ht => h.signed t (he.types t ht)⟩

/-- The variables of the innermost of some functions are declared in the function being built. -/
def Declares (F : Facts) (lv : List Level) (s : State) : Prop :=
  ∀ x v r, F.IsOwn lv x v → F.vars.get? v = some r →
    r.isGlobal = false ∧ r.name ∈ s.function.names

theorem Declares.later {F : Facts} {lv : List Level} {s s' : State} (h : Declares F lv s)
    (he : Emits s s') : Declares F lv s' :=
  fun x v r hv hr => ⟨(h x v r hv hr).1, he.function.mem (h x v r hv hr).2⟩

/-- Straight-line code was generated between `s` and `s'`. -/
structure Gen (c : CheckedProgram) (s s' : State) (code : List Instr)
    (At : Names → Array Op → (n a n' a' : Nat) → Prop) : Prop where
  emits : Emits s s'
  resolves : ∀ m f, Named c m → Within m f s' → ∀ i ∈ code, Resolves m f i
  places : ∀ N arr a a', CodeAt N arr code a a' →
    At N arr s.function.nextLabel a s'.function.nextLabel a'

namespace Gen

variable {c : CheckedProgram} {s s₁ s' : State} {code code' : List Instr}
  {At At' : Names → Array Op → (n a n' a' : Nat) → Prop}

theorem imp (h : Gen c s s' code At)
    (hat : ∀ {N arr n a n' a'}, At N arr n a n' a' → At' N arr n a n' a') :
    Gen c s s' code At' :=
  ⟨h.emits, h.resolves, fun N arr a a' hcode => hat (h.places N arr a a' hcode)⟩

theorem append (h : Gen c s s₁ code At) (h' : Gen c s₁ s' code' At') :
    Gen c s s' (code ++ code') fun N arr n a n' a' =>
      ∃ n₁ b, At N arr n a n₁ b ∧ At' N arr n₁ b n' a' := by
  refine ⟨h.emits.trans h'.emits, ?_, ?_⟩
  · intro m f hm hw i hi
    obtain hi | hi := List.mem_append.1 hi
    · exact h.resolves m f hm (hw.before h'.emits) i hi
    · exact h'.resolves m f hm hw i hi
  · intro N arr a a' hcode
    obtain ⟨b, hb, hb'⟩ := codeAt_append.1 hcode
    exact ⟨_, b, h.places N arr a b hb, h'.places N arr b a' hb'⟩

/-- Code that needs nothing new. -/
theorem of_resolves {is : List Instr}
    (h : ∀ m f, Named c m → Within m f s → ∀ i ∈ is, Resolves m f i) :
    Gen c s s is fun N arr n a n' a' => CodeAt N arr is a a' ∧ n' = n :=
  ⟨.refl s, h, fun _ _ _ _ hcode => ⟨hcode, rfl⟩⟩

theorem nil (s : State) : Gen c s s [] fun _ _ n a n' a' => a' = a ∧ n' = n := by
  refine (of_resolves fun _ _ _ _ i hi => absurd hi List.not_mem_nil).imp ?_
  rintro N arr n a n' a' ⟨ha, hn⟩
  exact ⟨codeAt_nil.1 ha, hn⟩

theorem one {i : Instr} (h : ∀ m f, Named c m → Within m f s → Resolves m f i) :
    Gen c s s [i] fun N arr n a n' a' => CodeAt N arr [i] a a' ∧ n' = n :=
  of_resolves fun m f hm hw _ hj => List.mem_singleton.1 hj ▸ h m f hm hw

end Gen

section

variable {p : Program} {c : CheckedProgram} {t₀ : Check.State} {lv : List Level}
  {passes : String → Bool}

theorem var_eq (hc : CheckedOk p c t₀) {v : VarId} {r : Variable}
    (hr : t₀.vars.get? v = some r) : c.var v = r := by
  rw [CheckedProgram.var, ← hc.vars_eq]
  exact Variables.get_eq_of_get? hr

theorem function_eq (hc : CheckedOk p c t₀) {id : FunId} {f : Function}
    (hf : t₀.functions[id.index]? = some f) : c.function id = f := by
  rw [CheckedProgram.function, ← hc.functions_eq, Functions.get, hf, Option.getD_some]

/-- A variable that a function reaches can be read and written in its code. -/
theorem resolves_var (hc : CheckedOk p c t₀) {x : String} {v : VarId}
    (hr : (t₀.facts c.classes).Reaches lv x v) {s : State}
    (hd : Declares (t₀.facts c.classes) lv s) {m : Code.Module} {f : Code.Func} (hm : Named c m)
    (hw : Within m f s) :
    ((c.var v).isGlobal = true ∧ (c.var v).name ∈ m.globals.map (·.name)) ∨
      ((c.var v).isGlobal = false ∧ (c.var v).name ∈ f.params ++ f.locals) := by
  obtain ⟨r, hr, hn, hcase⟩ := hr
  rw [var_eq hc hr]
  obtain ⟨hg, hl⟩ | hown := hcase
  · obtain ⟨d, hdv, rfl, -⟩ := hc.module x v hl
    exact .inl ⟨hg, hn ▸ hm.globals d hdv⟩
  · obtain ⟨hg, hmem⟩ := hd x v r hown hr
    exact .inr ⟨hg, hw.names _ hmem⟩

theorem resolves_loadVar (hc : CheckedOk p c t₀) {x : String} {v : VarId}
    (hr : (t₀.facts c.classes).Reaches lv x v) {s : State}
    (hd : Declares (t₀.facts c.classes) lv s) {m : Code.Module} {f : Code.Func} (hm : Named c m)
    (hw : Within m f s) : ∀ i ∈ loadVar (c.var v), Resolves m f i := by
  intro i hi
  obtain ⟨hg, hn⟩ | ⟨hg, hn⟩ := resolves_var hc hr hd hm hw
  · rw [loadVar, if_pos hg] at hi
    obtain rfl := List.mem_singleton.1 hi
    exact hn
  · rw [loadVar, if_neg (by simp [hg])] at hi
    split at hi
    · obtain rfl | hi := List.mem_cons.1 hi
      · exact hn
      · obtain rfl := List.mem_singleton.1 hi
        trivial
    · obtain rfl := List.mem_singleton.1 hi
      exact hn

/-- The method of a class for new objects is a function of the module. -/
theorem target_mem (hc : CheckedOk p c t₀) {k : String} {l : ClassLayout} {x target : String}
    (hl : c.classes.get? k = some l) (ht : l.target? x = some target) {m : Code.Module}
    (hm : Named c m) : target ∈ m.functionNames := by
  obtain ⟨id, hid⟩ := hc.known l (ClassTable.get?_mem hl).1 x target ht
  obtain ⟨f, hf, -, rfl⟩ := hc.nest.state.methods target id (Bindings.mem_of_lookup hid)
  exact hm.functions id f (hc.functions_eq ▸ hf)

theorem resolves_initFields {m : Code.Module} {f : Code.Func}
    (hn : newName ∈ f.params ++ f.locals) (i : Nat) (fs : List FieldLayout) :
    ∀ j ∈ initFields i fs, Resolves m f j := by
  induction fs generalizing i with
  | nil => exact fun j hj => absurd hj List.not_mem_nil
  | cons d ds ih =>
    intro j hj
    simp only [initFields, List.cons_append, List.nil_append, List.mem_cons] at hj
    obtain rfl | rfl | rfl | hj := hj
    · exact hn
    · trivial
    · trivial
    · exact ih _ j hj

theorem construct_gen (hc : CheckedOk p c t₀) {k : String} {s s' : State} {code : List Instr}
    (h : construct c k s = .ok (code, s')) :
    Gen c s s' code fun N arr n a n' a' =>
      ∃ l init, c.classes.get? k = some l ∧ l.target? initMethod = some init ∧
        CodeAt N arr (constructCode l init) a a' ∧ n' = n := by
  simp only [construct, bind_eq_ok, layoutOf_eq_ok] at h
  obtain ⟨l, s₁, ⟨hl, rfl⟩, h⟩ := h
  cases ht : l.target? initMethod with
  | none => simp [ht, stop_eq_ok] at h
  | some init =>
    simp only [ht, bind_eq_ok, addLocal_eq_ok, pure_eq_ok, Prod.mk.injEq] at h
    obtain ⟨_, _, ⟨-, rfl⟩, rfl, rfl⟩ := h
    have hlist : newName.toList = '#' :: ['n', 'e', 'w'] := by decide
    refine ⟨emits_function (Code.FunctionBuilder.grows_addLocal _ hlist), ?_, ?_⟩
    · intro m f hm hw i hi
      have hnew : newName ∈ f.params ++ f.locals :=
        hw.names _ (Code.FunctionBuilder.mem_addLocal _ _)
      simp only [allocWords, List.cons_append, List.nil_append, List.mem_cons,
        List.mem_append, List.not_mem_nil, or_false] at hi
      obtain rfl | rfl | rfl | rfl | rfl | rfl | hi | rfl | rfl | rfl | rfl := hi
      · trivial
      · exact hm.alloc
      · exact hnew
      · exact hnew
      · trivial
      · trivial
      · exact resolves_initFields hnew _ _ i hi
      · exact hnew
      · exact target_mem hc hl ht hm
      · trivial
      · exact hnew
    · intro N arr a a' hcode
      exact ⟨l, init, hl, ht, hcode, Code.FunctionBuilder.nextLabel_addLocal _ _⟩

theorem loadCell_eq_ok {v : Variable} {s : State} {r : List Instr × State} :
    loadCell v s = .ok r ↔ v.isGlobal = false ∧ v.isIndirect = true ∧
      r = ([.localGet v.name], s) := by
  unfold loadCell
  cases hg : v.isGlobal <;> cases hi : v.isIndirect <;> simp [stop_eq_ok, pure_eq_ok]

theorem loadCells_eq_ok {vs : List VarId} {s s' : State} {code : List Instr}
    (h : loadCells c vs s = .ok (code, s')) :
    s' = s ∧ code = vs.map (fun v => .localGet (c.var v).name) := by
  have hall : ∀ {vs : List VarId} {s s' : State} {codes : List (List Instr)},
      vs.mapM (fun v => loadCell (c.var v)) s = .ok (codes, s') →
        s' = s ∧ codes = vs.map fun v => [.localGet (c.var v).name] := by
    intro vs
    induction vs with
    | nil =>
      intro s s' codes h
      simp only [List.mapM_nil, pure_eq_ok, Prod.mk.injEq] at h
      exact ⟨h.2, h.1⟩
    | cons v vs ih =>
      intro s s' codes h
      simp only [List.mapM_cons, bind_eq_ok, loadCell_eq_ok, pure_eq_ok, Prod.mk.injEq] at h
      obtain ⟨_, s₁, ⟨-, -, rfl, rfl⟩, rest, s₂, hvs, rfl, rfl⟩ := h
      obtain ⟨rfl, rfl⟩ := ih hvs
      exact ⟨rfl, rfl⟩
  simp only [loadCells, bind_eq_ok, pure_eq_ok, Prod.mk.injEq] at h
  obtain ⟨codes, s₁, hvs, rfl, rfl⟩ := h
  obtain ⟨rfl, rfl⟩ := hall hvs
  refine ⟨rfl, ?_⟩
  rw [← List.flatMap_def, List.map_eq_flatMap]

theorem builtinCall_eq_ok {b : Builtin} {args : List Expr} {s : State}
    {r : List Instr × State} (h : builtinCall b args s = .ok r) :
    r.2 = s ∧ builtinCode b args = some r.1 := by
  obtain ⟨code, s'⟩ := r
  cases b with
  | print =>
    cases args with
    | nil => exact (stop_eq_ok.1 h).elim
    | cons e es =>
      simp only [builtinCall, bind_eq_ok, tyOf_eq_ok, pure_eq_ok, Prod.mk.injEq] at h
      obtain ⟨t, s₁, ⟨ht, rfl⟩, g, s₂, hg, rfl, rfl⟩ := h
      cases t with
      | object k => exact (stop_eq_ok.1 hg).elim
      | _ =>
        simp only [printer, pure_eq_ok, Prod.mk.injEq] at hg
        obtain ⟨rfl, rfl⟩ := hg
        simp [builtinCode, ht]
  | _ =>
    simp only [builtinCall, pure_eq_ok, Prod.mk.injEq] at h
    obtain ⟨rfl, rfl⟩ := h
    exact ⟨rfl, rfl⟩

theorem resolves_builtin {b : Builtin} {args : List Expr} {is : List Instr}
    (h : builtinCode b args = some is) {m : Code.Module} (f : Code.Func) (hm : Named c m) :
    ∀ i ∈ is, Resolves m f i := by
  have hcall : ∃ x ∈ ["#print_num", "#print_bool", "#print_none", "#abs", "#min", "#max", "#pow",
      checkInitName], ∃ rest, is = .call x :: rest ∧ rest ⊆ [.const 0] := by
    unfold builtinCode at h
    split at h
    all_goals cases h
    all_goals exact ⟨_, by simp, _, rfl, by simp⟩
  obtain ⟨x, hx, rest, rfl, hrest⟩ := hcall
  intro i hi
  obtain rfl | hi := List.mem_cons.1 hi
  · exact hm.hosts x hx
  · obtain rfl := List.mem_singleton.1 (hrest hi)
    trivial

theorem resolves_cells (hc : CheckedOk p c t₀) {vs : List VarId} {ks : List Capture}
    (hv : List.Forall₂ ((t₀.facts c.classes).Passes lv) vs ks) {s : State}
    (hd : Declares (t₀.facts c.classes) lv s) {m : Code.Module} {f : Code.Func}
    (hw : Within m f s) :
    ∀ i ∈ vs.map (fun v => Instr.localGet (c.var v).name), Resolves m f i := by
  intro i hi
  obtain ⟨v, hv', rfl⟩ := List.mem_map.1 hi
  obtain ⟨k, -, ⟨r, hr, -, -⟩, hown, -⟩ := exists_of_forall₂ hv hv'
  rw [var_eq hc hr]
  exact hw.names _ (hd _ _ r hown hr).2

/-- The local of a method call. -/
theorem newTemp_gen (s : State) :
    Gen c s { s with function := (s.function.newTemp "#recv").2 }
      [.call checkInitName, .localSet (receiverName s.function.nextLabel),
        .localGet (receiverName s.function.nextLabel)]
      fun N arr n a n' a' =>
        CodeAt N arr [.call checkInitName, .localSet (receiverName n), .localGet (receiverName n)]
          a a' ∧ n' = n + 1 := by
  have hlist : "#recv".toList = '#' :: ['r', 'e', 'c', 'v'] := by decide
  refine ⟨emits_function (grows_newTemp _ hlist), ?_, ?_⟩
  · intro m f hm hw i hi
    have hname : receiverName s.function.nextLabel ∈ f.params ++ f.locals :=
      hw.names _ (Code.FunctionBuilder.mem_addLocal _ _)
    simp only [List.mem_cons, List.not_mem_nil, or_false] at hi
    obtain rfl | rfl | rfl := hi
    · exact hm.hosts _ (by simp)
    · exact hname
    · exact hname
  · intro N arr a a' hcode
    exact ⟨hcode, Code.FunctionBuilder.nextLabel_addLocal _ _⟩

/-- The end of a method call. -/
theorem dispatch_gen (s : State) (x : String) (hx : x ∈ s.function.names) (slot k : Nat) :
    Gen c s { s with module := s.module.signature k }
      [.localGet x, .load 0, .const (word slot), .binary .add, .callIndirect (Code.signatureName k)]
      fun N arr n a n' a' =>
        CodeAt N arr [.localGet x, .load 0, .const (word slot), .binary .add,
          .callIndirect (Code.signatureName k)] a a' ∧ n' = n := by
  refine ⟨emits_signature s k, ?_, fun N arr a a' hcode => ⟨hcode, rfl⟩⟩
  intro m f hm hw i hi
  simp only [List.mem_cons, List.not_mem_nil, or_false] at hi
  obtain rfl | rfl | rfl | rfl | rfl := hi
  · exact hw.names _ hx
  · trivial
  · trivial
  · trivial
  · obtain ⟨t, ht, rfl⟩ := mem_signature s.module k
    have hname : (m.type? (Code.signatureName t.params)).isSome = true := by
      rw [← hw.signed t ht]
      exact hw.types t ht
    exact hname

mutual

/-- Code of a checked expression. -/
theorem expr_gen (hc : CheckedOk p c t₀) {e : Expr} {t : Ty} {s s' : State} {code : List Instr}
    (he : (t₀.facts c.classes).ExprOk lv passes e t) (hd : Declares (t₀.facts c.classes) lv s)
    (h : expr c e s = .ok (code, s')) : Gen c s s' code fun N arr => ExprAt c N arr e := by
  match e with
  | .literal i v =>
    simp only [expr, pure_eq_ok, Prod.mk.injEq] at h
    obtain ⟨rfl, rfl⟩ := h
    have hconst : Gen c s' s' [.const v.word] _ := Gen.one fun _ _ _ _ => trivial
    refine hconst.imp fun hat => ?_
    simpa only [ExprAt] using hat
  | .name i x b =>
    simp only [ExprOk] at he
    obtain ⟨-, v, rfl, hreach, -, -⟩ := he
    simp only [expr, bind_eq_ok, bound_eq_ok, pure_eq_ok, Prod.mk.injEq, Option.some.injEq] at h
    obtain ⟨_, _, ⟨_, rfl, rfl, rfl⟩, rfl, rfl⟩ := h
    refine (Gen.of_resolves fun m f hm hw => resolves_loadVar hc hreach hd hm hw).imp fun hat => ?_
    simp only [ExprAt]
    exact ⟨v, rfl, hat⟩
  | .unary i .neg e =>
    simp only [ExprOk] at he
    obtain ⟨-, -, he⟩ := he
    simp only [expr, bind_eq_ok, pure_eq_ok, Prod.mk.injEq] at h
    obtain ⟨_, _, h, rfl, rfl⟩ := h
    have hzero : Gen c s s [.const 0] _ := Gen.one fun _ _ _ _ => trivial
    have hsub : Gen c s' s' [.binary .sub] _ := Gen.one fun _ _ _ _ => trivial
    refine ((hzero.append (expr_gen hc he hd h)).append hsub).imp ?_
    rintro N arr n a n' a' ⟨n₁, b₂, ⟨_, b₁, ⟨hb₁, rfl⟩, hb₂⟩, ha', rfl⟩
    simp only [ExprAt]
    exact ⟨b₁, b₂, hb₁, hb₂, ha'⟩
  | .unary i .not e =>
    simp only [ExprOk] at he
    obtain ⟨-, -, he⟩ := he
    simp only [expr, bind_eq_ok, pure_eq_ok, Prod.mk.injEq] at h
    obtain ⟨_, _, h, rfl, rfl⟩ := h
    have hnot : Gen c s' s' [.eqz] _ := Gen.one fun _ _ _ _ => trivial
    refine ((expr_gen hc he hd h).append hnot).imp ?_
    rintro N arr n a n' a' ⟨n₁, b, hb, ha', rfl⟩
    simp only [ExprAt]
    exact ⟨b, hb, ha'⟩
  | .binary i op l r =>
    simp only [ExprOk] at he
    obtain ⟨-, _, _, hl, hr, -⟩ := he
    simp only [expr, bind_eq_ok, pure_eq_ok, Prod.mk.injEq] at h
    obtain ⟨_, s₁, h₁, _, _, h₂, rfl, rfl⟩ := h
    have hop : Gen c s' s' [.binary (binaryOp op)] _ := Gen.one fun _ _ _ _ => trivial
    have hleft := expr_gen hc hl hd h₁
    have hright := expr_gen hc hr (hd.later hleft.emits) h₂
    refine ((hleft.append hright).append hop).imp ?_
    rintro N arr n a n' a' ⟨_, b₂, ⟨n₁, b₁, hb₁, hb₂⟩, ha', rfl⟩
    simp only [ExprAt]
    exact ⟨n₁, b₁, b₂, hb₁, hb₂, ha'⟩
  | .call i callee args none =>
    simp only [ExprOk] at he
    exact he.2.elim
  | .call i callee args (some (.function id vs)) =>
    simp only [ExprOk] at he
    obtain ⟨-, f, hf, -, hargs, hcells⟩ := he
    simp only [expr, bind_eq_ok, pure_eq_ok, Prod.mk.injEq] at h
    obtain ⟨_, s₁, h₁, _, _, h₂, rfl, rfl⟩ := h
    obtain ⟨rfl, rfl⟩ := loadCells_eq_ok h₂
    have hfirst := exprs_gen hc hargs hd h₁
    have hcell : Gen c s' s' (vs.map fun v => Instr.localGet (c.var v).name) _ :=
      Gen.of_resolves fun m f _ hw => by
        obtain ⟨-, rfl⟩ | ⟨_, _, -, -, hv⟩ := hcells
        · exact fun i hi => absurd hi List.not_mem_nil
        · exact resolves_cells hc hv (hd.later hfirst.emits) hw
    have hcall : Gen c s' s' [.call (c.function id).emitted] _ :=
      Gen.one fun m _ hm _ => by
        have hid := hm.functions id f (hc.functions_eq ▸ hf)
        rwa [function_eq hc hf]
    refine ((hfirst.append hcell).append hcall).imp ?_
    rintro N arr n a n' a' ⟨_, b₂, ⟨n₁, b₁, hb₁, hb₂, rfl⟩, ha', rfl⟩
    simp only [ExprAt]
    exact ⟨b₁, b₂, hb₁, hb₂, ha'⟩
  | .call i callee args (some (.construct k)) =>
    simp only [expr] at h
    refine (construct_gen hc h).imp fun hat => ?_
    simp only [ExprAt]
    exact hat
  | .call i callee args (some (.builtin f)) =>
    simp only [ExprOk] at he
    obtain ⟨-, -, -, hargs⟩ := he
    simp only [expr, bind_eq_ok, pure_eq_ok, Prod.mk.injEq] at h
    obtain ⟨_, s₁, h₁, is, _, h₂, rfl, rfl⟩ := h
    obtain ⟨rfl, his⟩ := builtinCall_eq_ok h₂
    have hbuiltin : Gen c s' s' is _ :=
      Gen.of_resolves fun m f hm _ => resolves_builtin his f hm
    refine ((allOk_gen hc hargs hd h₁).append hbuiltin).imp ?_
    rintro N arr n a n' a' ⟨n₁, b, hb, ha', rfl⟩
    simp only [ExprAt]
    exact ⟨b, is, hb, his, ha'⟩
  | .field i o f =>
    simp only [ExprOk] at he
    obtain ⟨-, _, _, _, _, ho, -, -, -⟩ := he
    simp only [expr, bind_eq_ok, fieldOffset_eq_ok, pure_eq_ok, Prod.mk.injEq] at h
    obtain ⟨_, s₁, ⟨l, k, d, hl, hk, rfl, rfl⟩, _, _, h₁, rfl, rfl⟩ := h
    have hload : Gen c s' s' [.call checkInitName, .load (ClassLayout.fieldOffset k)] _ :=
      Gen.of_resolves fun m f hm _ i hi => by
        simp only [List.mem_cons, List.not_mem_nil, or_false] at hi
        obtain rfl | rfl := hi
        · exact hm.hosts _ (by simp)
        · trivial
    refine ((expr_gen hc ho hd h₁).append hload).imp ?_
    rintro N arr n a n' a' ⟨n₁, b, hb, ha', rfl⟩
    simp only [ExprAt]
    exact ⟨l, k, d, b, hl, hk, hb, ha'⟩
  | .method i o m args =>
    simp only [ExprOk] at he
    obtain ⟨-, _, _, _, ho, -, -, -, hargs⟩ := he
    simp only [expr, bind_eq_ok, slotOf_eq_ok, newTemp_eq_ok, signature_eq_ok, pure_eq_ok,
      Prod.mk.injEq] at h
    obtain ⟨k, _, ⟨l, _, e, hl, hm, rfl, rfl⟩, _, s₁, h₁, _, _, ⟨rfl, rfl⟩, _, s₂, h₂, _, _,
      ⟨rfl, rfl⟩, rfl, rfl⟩ := h
    have hfirst := expr_gen hc ho hd h₁
    have htemp := newTemp_gen (c := c) s₁
    have hsecond := exprs_gen hc hargs (hd.later (hfirst.emits.trans htemp.emits)) h₂
    have hmem : receiverName s₁.function.nextLabel ∈ s₂.function.names :=
      hsecond.emits.function.mem (Code.FunctionBuilder.mem_addLocal _ _)
    have hend := dispatch_gen (c := c) s₂ _ hmem k (args.length + 1)
    have hall := ((hfirst.append htemp).append hsecond).append hend
    refine ⟨hall.emits, hall.resolves, fun N arr a a' hcode => ?_⟩
    -- The name of the local is fixed, so the parts are placed one by one.
    obtain ⟨b₃, hcode, ha'⟩ := codeAt_append.1 hcode
    obtain ⟨b₂, hcode, hb₃⟩ := codeAt_append.1 hcode
    obtain ⟨b₁, hb₁, hb₂⟩ := codeAt_append.1 hcode
    have hnext := (htemp.places N arr _ _ hb₂).2
    have hb₃ := hsecond.places N arr _ _ hb₃
    simp only [ExprAt]
    rw [hnext] at hb₃
    exact ⟨l, k, e, s₁.function.nextLabel, b₁, b₂, b₃, hl, hm, hfirst.places N arr _ _ hb₁, hb₂,
      hb₃, ha'⟩

/-- Code of checked arguments. -/
theorem exprs_gen (hc : CheckedOk p c t₀) {es : List Expr} {ts : List Ty} {s s' : State}
    {code : List Instr} (he : (t₀.facts c.classes).ArgsOk lv passes es ts)
    (hd : Declares (t₀.facts c.classes) lv s) (h : exprs c es s = .ok (code, s')) :
    Gen c s s' code fun N arr => ExprsAt c N arr es := by
  match es, ts with
  | [], _ =>
    simp only [exprs, pure_eq_ok, Prod.mk.injEq] at h
    obtain ⟨rfl, rfl⟩ := h
    simp only [ExprsAt]
    exact Gen.nil _
  | e :: es, [] =>
    simp only [ArgsOk] at he
  | e :: es, t :: ts =>
    simp only [ArgsOk] at he
    obtain ⟨⟨_, he, -⟩, hes⟩ := he
    simp only [exprs, bind_eq_ok, pure_eq_ok, Prod.mk.injEq] at h
    obtain ⟨_, s₁, h₁, _, _, h₂, rfl, rfl⟩ := h
    have hfirst := expr_gen hc he hd h₁
    refine (hfirst.append (exprs_gen hc hes (hd.later hfirst.emits) h₂)).imp fun hat => ?_
    simp only [ExprsAt]
    exact hat

/-- Code of checked arguments of a builtin function. -/
theorem allOk_gen (hc : CheckedOk p c t₀) {es : List Expr} {good : Ty → Prop} {s s' : State}
    {code : List Instr} (he : (t₀.facts c.classes).AllOk lv passes good es)
    (hd : Declares (t₀.facts c.classes) lv s) (h : exprs c es s = .ok (code, s')) :
    Gen c s s' code fun N arr => ExprsAt c N arr es := by
  match es with
  | [] =>
    simp only [exprs, pure_eq_ok, Prod.mk.injEq] at h
    obtain ⟨rfl, rfl⟩ := h
    simp only [ExprsAt]
    exact Gen.nil _
  | e :: es =>
    simp only [AllOk] at he
    obtain ⟨⟨_, he, -⟩, hes⟩ := he
    simp only [exprs, bind_eq_ok, pure_eq_ok, Prod.mk.injEq] at h
    obtain ⟨_, s₁, h₁, _, _, h₂, rfl, rfl⟩ := h
    have hfirst := expr_gen hc he hd h₁
    refine (hfirst.append (allOk_gen hc hes (hd.later hfirst.emits) h₂)).imp fun hat => ?_
    simp only [ExprsAt]
    exact hat

end

end

end ObjLang.Emit
