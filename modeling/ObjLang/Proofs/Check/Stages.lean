import ObjLang.Check
import ObjLang.Proofs.Check.Module

/-!
# ObjLang.Proofs.Check.Stages — the stages of the check of a program

First everything that a program defines is declared, then the bodies are checked, and the statements
of the program last.
-/

namespace ObjLang

open Check Check.Facts

/-! ### The start -/

theorem Check.stateOk_empty : StateOk {} where
  descending := by
    intro v r o hr
    simp [Variables.get?] at hr
  origins := by
    intro v r o hr
    simp [Variables.get?] at hr
  refs := by
    intro v r hr
    simp [Variables.get?] at hr
  module := nofun
  aliases := by
    intro v r hr
    simp [Variables.get?] at hr
  parents := by
    intro id f p hf
    simp at hf
  orphans := by
    intro id f hf
    simp at hf
  arities := by
    intro id f hf
    simp at hf
  roots := nofun
  methods := by
    intro m id hm
    exact absurd hm List.not_mem_nil

theorem Check.scoped_empty (classes : ClassTable) : Scoped classes [] {} :=
  ⟨stateOk_empty, .nil⟩

/-! ### Declarations -/

/-- The names that the definitions of a program bind in the module. -/
def Program.names (p : Program) : List String :=
  (p.classes.map (·.name) ++ p.vars.map (·.var.name) ++ p.functions.map (·.name)).map Ident.name

theorem checkModuleNames_ok {p : Program} {s s' : State}
    (hc : checkModuleNames p s = .ok ((), s')) :
    s' = s ∧ p.names.Nodup ∧ ∀ x ∈ p.names, x ∉ reservedNames := by
  obtain ⟨hs, hnd, hres⟩ := checkDistinct_ok hc
  refine ⟨hs, hnd, fun x hx => ?_⟩
  obtain ⟨i, hi, rfl⟩ := List.mem_map.1 hx
  exact hres i hi

/-- The classes of a program in their order, the root class before them. -/
theorem ancestorsFirst_eq {classes : ClassTable} {defs : List ClassDef}
    (hl : classes.LaidOut defs) : ∃ rest, classes.layouts = .root :: rest ∧
      (∀ c ∈ rest, c.name ≠ rootClass) ∧
      ancestorsFirst classes defs
        = rest.filterMap fun c => defs.find? (·.name.name == c.name) := by
  obtain ⟨rest, hrest⟩ : ∃ rest, classes.layouts = .root :: rest := by
    have hroot := hl.root
    cases hls : classes.layouts with
    | nil => simp [hls] at hroot
    | cons c rest =>
      rw [hls, List.head?_cons, Option.some.injEq] at hroot
      exact ⟨rest, by rw [hroot]⟩
  have hne : ∀ c ∈ rest, c.name ≠ rootClass := by
    intro c hc heq
    have hnd := hl.names
    rw [hrest, List.map_cons, List.nodup_cons] at hnd
    exact hnd.1 (List.mem_map.2 ⟨c, hc, heq⟩)
  refine ⟨rest, hrest, hne, ?_⟩
  have hfilter : rest.filter (fun c => c.name != rootClass) = rest :=
    List.filter_eq_self.2 fun c hc => by simpa using hne c hc
  have hroot : (ClassLayout.root.name != rootClass) = false := by
    simp [ClassLayout.root]
  rw [ancestorsFirst, hrest, List.filter_cons, hroot, if_neg (by simp), hfilter]

theorem flatMap_zip {α β γ : Type} (f : α → List β) (g : α → List γ) {as : List α}
    (h : ∀ a ∈ as, (f a).length = (g a).length) :
    as.flatMap (fun a => (f a).zip (g a)) = (as.flatMap f).zip (as.flatMap g) := by
  induction as with
  | nil => rfl
  | cons a as ih =>
    simp only [List.flatMap_cons]
    rw [List.zip_append (h a List.mem_cons_self), ih fun b hb => h b (List.mem_cons_of_mem _ hb)]

/-- All signatures are there, and no body is checked yet. -/
theorem Check.Declared.progress {classes : ClassTable} {ds : List FunDef} {ids : List FunId}
    {s s' : State} (h : Declared classes ds ids s s') :
    Progress classes s'.functions.size [] (ds.zip ids) s' := by
  have hlen : ds.length = ids.length := h.signatures.length_eq
  refine ⟨h.nest, nofun, nofun, ?_, ?_, Nat.le_refl _, fun i hi hi' => by omega⟩
  · rintro ⟨d, id⟩ hp
    exact (List.forall₂_iff_zip.1 h.signatures).2 hp
  · have hsnd : (ds.zip ids).map Prod.snd = ids := List.map_snd_zip (Nat.le_of_eq hlen.symm)
    rw [hsnd, h.ids_eq]
    refine List.Nodup.map (fun a b hab => ?_) List.nodup_range'
    cases hab
    rfl

theorem Check.Known.grows {classes : ClassTable} {layouts : List ClassLayout} {s s' : State}
    (h : Grows (s.facts classes) (s'.facts classes)) (hk : Known layouts s) : Known layouts s' := by
  intro c hc x target ht
  obtain ⟨id, hid⟩ := hk c hc x target ht
  exact exists_lookup_of_mem (h.methods _ (Bindings.mem_of_lookup hid))

/-- The names of the functions of the module stand for what was declared under them. -/
theorem Check.declareFunctions_lookup {classes : ClassTable} {s s' : State} {ds : List FunDef}
    {ids : List FunId} (h : Scoped classes [] s) (hc : ds.mapM (declareFunction classes) s = .ok (ids, s'))
    {x : String} {id : FunId} (hx : List.lookup x s'.funEnv.module = some id) :
    List.lookup x s.funEnv.module = some id ∨ ∃ p ∈ ds.zip ids, p.1.name.name = x ∧ p.2 = id := by
  induction ds generalizing s ids with
  | nil =>
    simp only [List.mapM_nil, pure_eq_ok, Prod.mk.injEq] at hc
    obtain ⟨-, rfl⟩ := hc
    exact .inl hx
  | cons d ds ih =>
    simp only [List.mapM_cons, declareFunction, bind_eq_ok, bindFunction_eq_ok, pure_eq_ok,
      Prod.mk.injEq] at hc
    obtain ⟨id₁, s₁, ⟨_, s₂, hsig, _, _, ⟨-, rfl⟩, rfl, rfl⟩, ids₁, s₄, hds, rfl, rfl⟩ := hc
    obtain ⟨hst₂, hr₂, -, -, f, hf, -⟩ := declareSignature_ok h.state (by simp) hsig
    have h₃ := (h.records hr₂ hst₂).bindRoot (x := d.name.name) hf.record hf.parent
    obtain hx | ⟨p, hp, hpx⟩ := ih h₃ hds
    · have hinner : s₂.funEnv.inner = [] := by rw [hr₂.funEnv, h.at_module.2.2]
      have hmod : (s₂.funEnv.declare d.name.name id₁).module
          = s.funEnv.module.insert d.name.name id₁ := by
        rw [Env.declare, hinner, hr₂.funEnv]
      rw [hmod] at hx
      by_cases hxd : x = d.name.name
      · subst hxd
        rw [Bindings.lookup_insert_self] at hx
        exact .inr ⟨(d, id₁), List.mem_cons_self, rfl, Option.some.inj hx⟩
      · rw [Bindings.lookup_insert_of_ne hxd] at hx
        exact .inl hx
    · exact .inr ⟨p, List.mem_cons_of_mem _ hp, hpx⟩

/-- Everything that a program defines is declared, and no body is checked yet.  The state `s₀` is the
one behind the root method. -/
structure Announced (classes : ClassTable) (p : Program) (vars : List VarDef) (root : FunId)
    (cs : List (ClassDef × List FunId)) (ids : List FunId) (s₀ s : State) : Prop where
  names : p.names.Nodup
  reserved : ∀ x ∈ p.names, x ∉ reservedNames
  globals : ∀ d ∈ vars, (s.facts classes).GlobalOk d
  module : ∀ x v, List.lookup x s.varEnv.module = some v →
    ∃ d ∈ vars, d.var.name.name = x ∧ d.binding = some v
  sameVars : List.Forall₂ (fun d d' => d'.var = d.var ∧ d'.init = d.init) p.vars vars
  root_eq : root = ⟨0⟩
  root : (s.facts classes).RootOk root
  start : s₀.functions.size = 1
  known : Known classes.layouts s
  classNames : classes.layouts.map ClassLayout.name = rootClass :: cs.map (·.1.name.name)
  definitions : ∀ c ∈ cs, c.1 ∈ p.classes
  methods : ∀ c ∈ cs, List.Forall₂ ((s.facts classes).MethodOk c.1.name.name) c.1.methods c.2
  declared : Declared classes (cs.flatMap (·.1.methods) ++ p.functions)
    (cs.flatMap (·.2) ++ ids) s₀ s
  functionNames : List.Forall₂ (s.facts classes).NameOk p.functions ids
  roots : ∀ x id, List.lookup x s.funEnv.module = some id →
    ∃ q ∈ p.functions.zip ids, q.1.name.name = x ∧ q.2 = id

section

variable {classes : ClassTable} {p : Program} {vars : List VarDef} {root : FunId}
  {cs : List (ClassDef × List FunId)} {ids : List FunId}

theorem announced_ok {s₁ s₂ s₃ s₄ : State} (hl : classes.LaidOut p.classes)
    (hnames : checkModuleNames p {} = .ok ((), {}))
    (hvars : p.vars.mapM (checkGlobal classes) {} = .ok (vars, s₁))
    (hrootInit : declareRootInit s₁ = .ok (root, s₂))
    (hcs : (ancestorsFirst classes p.classes).mapM (declareMethods classes) s₂ = .ok (cs, s₃))
    (hids : p.functions.mapM (declareFunction classes) s₃ = .ok (ids, s₄)) :
    Announced classes p vars root cs ids s₂ s₄ := by
  obtain ⟨rest, hlayouts, hroot, hfirst⟩ := ancestorsFirst_eq hl
  obtain ⟨-, hnd, hres⟩ := checkModuleNames_ok hnames
  have h₁ : Globals classes p.vars vars {} s₁ := by
    refine checkGlobals_ok (scoped_empty classes) ?_ (fun _ _ => rfl) hvars
    rw [Program.names, List.map_append, List.map_append, List.map_map, List.map_map,
      List.map_map] at hnd
    exact (List.nodup_append.1 (List.nodup_append.1 hnd).1).2.1
  have hempty : s₁.functions.size = 0 := by rw [h₁.functions]; rfl
  obtain ⟨hn₂, ha₂, hroot₂, hsize₂, hrootOk, hknown₂, hf₂⟩ := declareRootInit_ok h₁.nest hrootInit
  rw [hfirst] at hcs
  obtain ⟨h₃, hcsn, hcsd, hknown₃⟩ := declareClasses_ok hl (List.singleton_append ▸ hlayouts) hroot
    hn₂ hknown₂ hcs
  obtain ⟨h₄, hnames₄⟩ := declareFunctions_ok h₃.declared.nest hids
  have hg₃₄ := h₄.adds.toGrows
  have hg₂₄ := h₃.declared.adds.toGrows.trans hg₃₄
  have hg₁₄ := ha₂.toGrows.trans hg₂₄
  have hmod : s₄.varEnv.module = s₁.varEnv.module := hg₁₄.module
  refine ⟨hnd, hres, fun d hd => (h₁.ok d hd).grows hg₁₄, ?module, h₁.same, ?root_eq,
    hrootOk.grows hg₂₄, by rw [hsize₂, hempty], hknown₃.grows hg₃₄, ?classNames, hcsd,
    fun c hc => (h₃.ok c hc).imp fun _ _ hm => hm.grows hg₃₄, h₃.declared.append h₄, hnames₄,
    ?roots⟩
  case module =>
    intro x v hv
    rw [hmod] at hv
    obtain hv | hd := h₁.module x v hv
    · cases hv
    · exact hd
  case root_eq => rw [hroot₂, hempty]
  case classNames =>
    rw [hlayouts, List.map_cons, hcsn]
    rfl
  case roots =>
    intro x id hx
    have hnone : s₃.funEnv.module = [] := by
      rw [h₃.funEnv, hf₂, h₁.funEnv]
      rfl
    obtain hx | hq := declareFunctions_lookup h₃.declared.nest hids hx
    · rw [hnone] at hx
      cases hx
    · exact hq

/-! ### Bodies -/

namespace Announced

variable {s₀ s s₅ s₆ : State} {ms : List (String × List FunDef)} {ds : List FunDef}

theorem zip_eq (h : Announced classes p vars root cs ids s₀ s) :
    (cs.flatMap (·.1.methods) ++ p.functions).zip (cs.flatMap (·.2) ++ ids)
      = cs.flatMap (fun c => c.1.methods.zip c.2) ++ p.functions.zip ids := by
  have hlen : ∀ c ∈ cs, c.1.methods.length = c.2.length := fun c hc => (h.methods c hc).length_eq
  have hall : (cs.flatMap (·.1.methods)).length = (cs.flatMap (·.2)).length := by
    rw [List.length_flatMap, List.length_flatMap]
    exact congrArg List.sum (List.map_congr_left hlen)
  rw [List.zip_append hall, flatMap_zip _ _ hlen]

theorem progress (h : Announced classes p vars root cs ids s₀ s) :
    Progress classes s.functions.size []
      (cs.flatMap (fun c => c.1.methods.zip c.2) ++ p.functions.zip ids) s := by
  rw [← h.zip_eq]
  exact h.declared.progress

/-- All bodies are checked. -/
theorem bodies (h : Announced classes p vars root cs ids s₀ s)
    (hms : (cs.mapM fun c => do
      return (c.1.name.name, ← checkBodies classes c.1.methods c.2) : CheckM _) s = .ok (ms, s₅))
    (hds : checkBodies classes p.functions ids s₅ = .ok (ds, s₆)) :
    Progress classes s.functions.size (ms.flatMap Prod.snd ++ ds) [] s₆ ∧
      List.Forall₂ (fun c m => m.1 = c.1.name.name ∧
        List.Forall₂ Comes (c.1.methods.zip c.2) m.2) cs ms ∧
      List.Forall₂ Comes (p.functions.zip ids) ds ∧
      Grows (s.facts classes) (s₆.facts classes) := by
  obtain ⟨h₅, hcomes₅, hg₅⟩ := h.progress.methods hms
  rw [← List.append_nil (p.functions.zip ids)] at h₅
  obtain ⟨h₆, hcomes₆, hg₆⟩ := h₅.bodies hds
  exact ⟨by simpa using h₆, hcomes₅, hcomes₆, hg₅.trans hg₆⟩

end Announced

end

/-! ### The whole check -/

/-- A program with its definitions replaced by checked ones. -/
def withChecked (p : Program) (vars : List VarDef) (ms : List (String × List FunDef))
    (functions : List FunDef) (body : List Stmt) : Program :=
  { p with
    vars, functions, body
    classes := p.classes.map fun k =>
      { k with methods := (List.lookup k.name.name ms).getD k.methods } }

/-- The stages of the check of a program, with the states between them. -/
theorem checkProgram_cases {classes : ClassTable} {p p' : Program} {root : FunId} {s : State}
    (hc : checkProgram classes p {} = .ok ((p', root), s)) :
    ∃ vars s₁ s₂ cs s₃ ids s₄ ms s₅ ds s₆ body, checkModuleNames p {} = .ok ((), {}) ∧
      p.vars.mapM (checkGlobal classes) {} = .ok (vars, s₁) ∧
      declareRootInit s₁ = .ok (root, s₂) ∧
      (ancestorsFirst classes p.classes).mapM (declareMethods classes) s₂ = .ok (cs, s₃) ∧
      p.functions.mapM (declareFunction classes) s₃ = .ok (ids, s₄) ∧
      (cs.mapM fun c => do
        return (c.1.name.name, ← checkBodies classes c.1.methods c.2) : CheckM _) s₄
          = .ok (ms, s₅) ∧
      checkBodies classes p.functions ids s₅ = .ok (ds, s₆) ∧
      checkBlock classes p.body s₆ = .ok (body, s) ∧ p' = withChecked p vars ms ds body := by
  simp only [checkProgram, bind_eq_ok, pure_eq_ok, Prod.mk.injEq] at hc
  obtain ⟨⟨⟩, s₀, hnames, vars, s₁, hvars, root', s₂, hrootInit, cs, s₃, hcs, ids, s₄, hids, ms,
    s₅, hms, ds, s₆, hds, body, s₇, hbody, ⟨rfl, rfl⟩, rfl⟩ := hc
  obtain rfl := (checkModuleNames_ok hnames).1
  refine ⟨vars, s₁, s₂, cs, s₃, ids, s₄, ms, s₅, ds, s₆, body, hnames, hvars, hrootInit, hcs, hids,
    ?_, hds, hbody, rfl⟩
  simpa only [bind_eq_ok, pure_eq_ok, Prod.mk.injEq] using hms

end ObjLang
