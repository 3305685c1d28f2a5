import ObjLang.Proofs.Class.Subclass
import ObjLang.Proofs.Machine.Functions

/-!
# ObjLang.Proofs.Overrides — methods that stand for those above them

The check compares a method with the one that its class has from the direct superclass, and with no
other.  Along a chain of classes the comparisons compose: parameters stay the same, and results stay
assignable.  So whatever method a slot leads to for an object of a class below, it can stand for the
one that a call was checked against.
-/

namespace ObjLang

open Check Check.Facts

theorem ClassDef.Provides.descends {classes : List ClassDef} {m k owner : String}
    (h : ClassDef.Provides classes m k owner) : ClassDef.Descends classes k owner := by
  induction h with
  | root _ => exact .refl
  | own _ _ => exact .refl
  | inherited hd _ _ ih => exact .step hd ih

theorem Check.Overrides.refl (classes : ClassTable) (f : Function) : Overrides classes f f :=
  ⟨rfl, rfl, classes.isAssignable_refl f.ret⟩

theorem Check.Overrides.trans {classes : ClassTable} {defs : List ClassDef} {e f g : Function}
    (hl : classes.LaidOut defs) (hef : Overrides classes e f) (hfg : Overrides classes f g) :
    Overrides classes e g :=
  ⟨hfg.params.trans hef.params, hfg.length.trans hef.length, hl.isAssignable_trans hfg.ret hef.ret⟩

/-! ### The function of a slot -/

/-- A slot leads to the function of a record, which has a receiver of the class that owns it. -/
structure Check.Facts.EntryOk (F : Facts) (e : MethodEntry) (id : FunId) (f : Function) : Prop where
  listed : (e.target, id) ∈ F.methods
  record : F.functions[id.index]? = some f
  emitted : f.emitted = e.target
  receives : F.Receives e.owner f
  receiver : ∃ ts, f.paramTypes = .object e.owner :: ts

/-- A name in generated code leads to a function whose first parameter is the receiver of a class. -/
structure CheckedProgram.MethodNamed (c : CheckedProgram) (target owner : String) (id : FunId)
    (f : Function) : Prop where
  named : c.functionNamed? target = some (id, f)
  self : ∃ v vs, f.params = v :: vs ∧ (c.var v).name = "self" ∧ (c.var v).ty.ty = .object owner
  receiver : f.paramTypes.head? = some (.object owner)

namespace CheckedOk

variable {p : Program} {c : CheckedProgram} {s : State}

/-- Functions have different names in generated code. -/
theorem id_of_emitted (h : CheckedOk p c s) (hp : p.Words) {i j : FunId} {f g : Function}
    (hf : s.functions[i.index]? = some f) (hg : s.functions[j.index]? = some g)
    (heq : f.emitted = g.emitted) : i = j := by
  have hcases : ∀ {i : FunId} {f : Function}, s.functions[i.index]? = some f →
      (i = c.rootInit ∧ f.emitted = methodTarget rootClass initMethod) ∨
        ∃ outer d, c.Nest outer d ∧ d.id = some i ∧ c.emitted d = f.emitted := by
    intro i f hf
    obtain hroot | ⟨d, hd, hid⟩ :=
      h.covers i.index (h.functions_eq ▸ (Array.getElem?_eq_some_iff.1 hf).1)
    · obtain ⟨r, hr, -, he, -⟩ := h.root
      rw [hroot] at hr
      cases hf.symm.trans hr
      exact .inl ⟨hroot.symm, he⟩
    · obtain ⟨outer, hnest⟩ := CheckedProgram.exists_nest hd
      exact .inr ⟨outer, d, hnest, hid, h.emitted_eq hid hf⟩
  obtain ⟨hi, hroot⟩ | ⟨outer, d, hd, hid, he⟩ := hcases hf <;>
    obtain ⟨hj, hroot'⟩ | ⟨outer', d', hd', hid', he'⟩ := hcases hg
  · exact hi.trans hj.symm
  · exact absurd (he'.trans (heq.symm.trans hroot)) (h.emitted_ne_root hp hd')
  · exact absurd (he.trans (heq.trans hroot')) (h.emitted_ne_root hp hd)
  · obtain rfl := h.emitted_inj hp hd hd' (he.trans (heq.trans he'.symm))
    exact Option.some.inj (hid.symm.trans hid')

theorem functionNamed?_emitted (h : CheckedOk p c s) (hp : p.Words) {id : FunId} {f : Function}
    (hf : s.functions[id.index]? = some f) : c.functionNamed? f.emitted = some (id, f) := by
  have hget : ∀ {g : Function} {i : Nat}, (g, i) ∈ c.functions.toList.zipIdx ↔
      s.functions[i]? = some g := by
    intro g i
    rw [List.mem_zipIdx_iff_getElem?, Array.getElem?_toList, h.functions_eq]
  obtain ⟨⟨g, i⟩, hfind⟩ : ∃ e, c.functions.toList.zipIdx.find? (·.1.emitted == f.emitted)
      = some e := by
    refine Option.isSome_iff_exists.1 (List.find?_isSome.2 ⟨(f, id.index), hget.2 hf, ?_⟩)
    exact beq_self_eq_true _
  have hg := hget.1 (List.mem_of_find?_eq_some hfind)
  have heq : g.emitted = f.emitted := by simpa using List.find?_some hfind
  obtain rfl : id = ⟨i⟩ := h.id_of_emitted hp hf (j := ⟨i⟩) hg heq.symm
  cases hf.symm.trans hg
  rw [CheckedProgram.functionNamed?, hfind, Option.map_some]

/-- Every slot of a class leads to a function. -/
theorem exists_entry (h : CheckedOk p c s) {l : ClassLayout} (hl : l ∈ c.classes.layouts)
    {x : String} {e : MethodEntry} (he : l.methods.find? (·.name == x) = some e) :
    ∃ id f, (s.facts c.classes).EntryOk e id f := by
  obtain ⟨howner, htarget⟩ := ClassTable.Laid.provides h.laid (h.laid.laid l hl) he
  obtain ⟨rfl, hroot⟩ | ⟨k, hk, hkn, hdef⟩ := ((howner e.owner).2 rfl).cases
  · obtain ⟨f, hf, -, hem, hmem, hts, -, -, -, -, hself⟩ := h.root
    have ht : f.emitted = e.target := by rw [hem, htarget, hroot]
    exact ⟨c.rootInit, f, ht ▸ hmem, hf, ht, hroot ▸ hself, [], hroot ▸ hts⟩
  · obtain ⟨k', hk', hname, -, hms⟩ := exists_of_forall₂ h.sameClasses hk
    obtain ⟨m, hm, hmx⟩ := List.mem_map.1 hdef
    obtain ⟨d, hd, hb⟩ := exists_of_forall₂ hms hm
    have hdx : d.name.name = x := by rw [hb.name, hmx]
    have hkn' : k'.name.name = e.owner := by rw [hname, hkn]
    obtain ⟨-, id, -, f, hf, -, hem, hmem, hts, -, -, hself⟩ := h.methods k' hk' d hd
    have ht : f.emitted = e.target := by rw [hem, htarget, hkn', hdx]
    exact ⟨id, f, ht ▸ hmem, hf, ht, hkn' ▸ hself, hkn' ▸ hts⟩

theorem methodNamed (h : CheckedOk p c s) (hp : p.Words) {e : MethodEntry} {id : FunId}
    {f : Function} (he : (s.facts c.classes).EntryOk e id f) :
    c.MethodNamed e.target e.owner id f where
  named := he.emitted ▸ h.functionNamed?_emitted hp he.record
  self := by
    obtain ⟨v, vs, r, hps, hr, hn, ht⟩ := he.receives
    have hv : c.var v = r := Emit.var_eq h hr
    exact ⟨v, vs, hps, by rw [hv, hn], by rw [hv, ht]⟩
  receiver := by
    obtain ⟨ts, hts⟩ := he.receiver
    rw [hts, List.head?_cons]

/-! ### Along a chain of classes -/

/-- The function of a slot is one only. -/
theorem entry_unique (h : CheckedOk p c s) (hp : p.Words) {e : MethodEntry} {i j : FunId}
    {f g : Function} (hf : (s.facts c.classes).EntryOk e i f)
    (hg : (s.facts c.classes).EntryOk e j g) : f = g := by
  obtain rfl := h.id_of_emitted hp hf.record hg.record (hf.emitted.trans hg.emitted.symm)
  exact Option.some.inj (hf.record.symm.trans hg.record)

/-- The method of a class can stand for that of its superclass. -/
theorem overrides_superclass (h : CheckedOk p c s) (hp : p.Words) {a b x : String}
    {la lb : ClassLayout} (ha : c.classes.get? a = some la) (hs : la.superclass = some b)
    (hb : c.classes.get? b = some lb) {ea eb : MethodEntry}
    (hea : la.methods.find? (·.name == x) = some ea)
    (heb : lb.methods.find? (·.name == x) = some eb) {i j : FunId} {f g : Function}
    (hf : (s.facts c.classes).EntryOk ea i f) (hg : (s.facts c.classes).EntryOk eb j g) :
    Overrides c.classes g f := by
  obtain ⟨lb', d, base, hb', hd, hdn, hx⟩ := h.laid.superclass ha hs
  cases hb.symm.trans hb'
  have hindexed := h.laid.indexed (ClassTable.get?_mem hb).1
  rw [hindexed.find?_extend hx] at hea
  by_cases hown : x ∈ d.methods.map (·.name.name)
  · -- the class defines the method, and the check compared it with that of the superclass
    rw [if_pos hown, Option.some.injEq] at hea
    obtain ⟨m, hm, rfl⟩ := List.mem_map.1 hown
    obtain ⟨k, hk, hkn, -, hms⟩ := exists_of_forall₂ h.sameClasses hd
    obtain ⟨m', hm', hbinds⟩ := exists_of_forall₂ hms hm
    have hname : m'.name.name = m.name.name := by rw [hbinds.name]
    have hclass : k.name.name = a := by rw [hkn, hdn]
    obtain ⟨-, id, -, f', hf', -, hem, -, -, -, hover, -⟩ := h.methods k hk m' hm'
    have htarget : lb.target? m'.name.name = some eb.target := by
      rw [hindexed.target?_eq, hname, heb, Option.map_some]
    obtain ⟨j', g', hj', hg', hgf⟩ := hover _ lb b eb.target (hclass ▸ ha) hs hb htarget
    obtain ⟨g'', hg'', -, hgem⟩ := h.nest.state.methods _ _ hj'
    cases hg'.symm.trans hg''
    have hff : id = i := by
      refine h.id_of_emitted hp hf' hf.record ?_
      rw [hem, hf.emitted, ← hea, hname, hclass, hdn]
    have hgg : j' = j := h.id_of_emitted hp hg' hg.record (hgem.trans hg.emitted.symm)
    subst hff hgg
    cases hf'.symm.trans hf.record
    cases hg'.symm.trans hg.record
    exact hgf
  · -- the slot is inherited and leads to the same function
    rw [if_neg hown] at hea
    cases heb.symm.trans hea
    rw [h.entry_unique hp hf hg]
    exact .refl _ _

/-- The method of a class can stand for that of every class above. -/
theorem overrides_below (h : CheckedOk p c s) (hp : p.Words) {a b x : String}
    (hab : c.classes.Below a b) {la lb : ClassLayout} (ha : c.classes.get? a = some la)
    (hb : c.classes.get? b = some lb) {ea eb : MethodEntry}
    (hea : la.methods.find? (·.name == x) = some ea)
    (heb : lb.methods.find? (·.name == x) = some eb) {i j : FunId} {f g : Function}
    (hf : (s.facts c.classes).EntryOk ea i f) (hg : (s.facts c.classes).EntryOk eb j g) :
    Overrides c.classes g f := by
  -- up the chain: the superclass has the slot too, and its function is compared on both sides
  induction hab generalizing la ea i f with
  | refl =>
    cases ha.symm.trans hb
    cases hea.symm.trans heb
    rw [h.entry_unique hp hf hg]
    exact .refl _ _
  | @step a b' b _ ha' hs hbb ih =>
    cases ha.symm.trans ha'
    obtain ⟨l, -, -, hl, -⟩ := h.laid.superclass ha hs
    obtain ⟨e, he⟩ : ∃ e, l.methods.find? (·.name == x) = some e :=
      (hbb.inherits h.laid hl hb).exists_method heb
    obtain ⟨id, r, hr⟩ := h.exists_entry (ClassTable.get?_mem hl).1 he
    have habove := ih hl hb he hr
    exact habove.trans h.laid (h.overrides_superclass hp ha hs hl hea he hf hr)

end CheckedOk

/-! ### Methods of accepted programs -/

/-- Whatever slot a class has for a method, a class that descends from it has the same one, and the
functions that the two lead to are there: the lower one takes the same parameters behind the
receiver and gives a result that is assignable to that of the upper one, and the receiver of each is
of the class that defines it, at or above the class that it is found from. -/
theorem check_overrides {source : String} {p : Program} {c : CheckedProgram}
    (hp : Program.parse source = .ok p) (hc : p.check = .ok c) {a b m : String} {lb : ClassLayout}
    {slot : Nat} {eb : MethodEntry} (hb : c.classes.get? b = some lb)
    (hm : lb.method? m = some (slot, eb)) (hab : ClassDef.Descends p.classes a b) :
    ∃ la ea i f j g, c.classes.get? a = some la ∧ la.method? m = some (slot, ea) ∧
      c.MethodNamed ea.target ea.owner i f ∧ c.MethodNamed eb.target eb.owner j g ∧
      f.params.length = g.params.length ∧ f.paramTypes.length = g.paramTypes.length ∧
      f.paramTypes.drop 1 = g.paramTypes.drop 1 ∧
      c.classes.hierarchy.isAssignable f.ret g.ret = true ∧
      ClassDef.Descends p.classes a ea.owner ∧ ClassDef.Descends p.classes b eb.owner := by
  obtain ⟨s, h⟩ := Program.check_ok hc
  have hw := Program.parse_words hp
  obtain ⟨la, ea, ha, hma, hpa, -⟩ := h.laid.dispatch hb hab hm
  obtain ⟨lb', eb', hb', hmb, hpb, -⟩ := h.laid.dispatch hb .refl hm
  cases hb.symm.trans hb'
  cases hm.symm.trans hmb
  have hea : la.methods.find? (·.name == m) = some ea := by
    rw [← (h.laid.indexed (ClassTable.get?_mem ha).1).method?_eq, hma, Option.map_some]
  have heb : lb.methods.find? (·.name == m) = some eb := by
    rw [← (h.laid.indexed (ClassTable.get?_mem hb).1).method?_eq, hm, Option.map_some]
  obtain ⟨i, f, hf⟩ := h.exists_entry (ClassTable.get?_mem ha).1 hea
  obtain ⟨j, g, hg⟩ := h.exists_entry (ClassTable.get?_mem hb).1 heb
  have hover := h.overrides_below hw (h.laid.below hab) ha hb hea heb hf hg
  have hparams : f.params.length = g.params.length := by
    rw [h.nest.state.arities i f hf.record, h.nest.state.arities j g hg.record, hover.length]
  exact ⟨la, ea, i, f, j, g, ha, hma, h.methodNamed hw hf, h.methodNamed hw hg, hparams,
    hover.length, hover.params, hover.ret, ((hpa _).2 rfl).descends, ((hpb _).2 rfl).descends⟩

/-- A method that is defined again two classes below, with a narrower result. -/
def narrowed : String :=
  "class A(object):\n  def make(self:A, n:int) -> object:\n    return self\n" ++
  "class B(A):\n  x:int = 0\n" ++
  "class C(B):\n  def make(self:C, n:int) -> B:\n    return None\nprint(1)\n"

theorem narrowed_checked : (Program.parse narrowed).toOption.any (fun p =>
    p.classes.map (fun d => (d.name.name, d.superclass.name))
        == [("A", "object"), ("B", "A"), ("C", "B")] &&
      p.check.toOption.any fun c => (c.classes.get? "A").any fun l =>
        (l.method? "make").map (·.1) == some 1) = true := by
  decide +kernel

theorem check_overrides_narrowed : ∃ p c lb eb la ea i f j g,
    Program.parse narrowed = .ok p ∧ p.check = .ok c ∧ c.classes.get? "A" = some lb ∧
    lb.method? "make" = some (1, eb) ∧ ClassDef.Descends p.classes "C" "A" ∧
    c.classes.get? "C" = some la ∧ la.method? "make" = some (1, ea) ∧
    c.MethodNamed ea.target ea.owner i f ∧ c.MethodNamed eb.target eb.owner j g ∧
    f.params.length = g.params.length ∧
    c.classes.hierarchy.isAssignable f.ret g.ret = true := by
  obtain ⟨p, hp, hchecked⟩ := toOption_any_eq_true.1 narrowed_checked
  rw [Bool.and_eq_true, beq_iff_eq] at hchecked
  obtain ⟨hclasses, hchecked⟩ := hchecked
  obtain ⟨c, hc, hslot⟩ := toOption_any_eq_true.1 hchecked
  obtain ⟨lb, hb, hslot⟩ := (Option.any_eq_true _ _).1 hslot
  obtain ⟨⟨slot, eb⟩, hm, rfl⟩ := Option.map_eq_some_iff.1 (beq_iff_eq.1 hslot)
  have hmem : ∀ {x y : String}, (x, y) ∈ [("A", "object"), ("B", "A"), ("C", "B")] →
      ∃ d ∈ p.classes, d.name.name = x ∧ d.superclass.name = y := by
    intro x y hxy
    obtain ⟨d, hd, heq⟩ := List.mem_map.1 (hclasses ▸ hxy)
    exact ⟨d, hd, (Prod.mk.inj heq).1, (Prod.mk.inj heq).2⟩
  have hdesc : ClassDef.Descends p.classes "C" "A" := by
    obtain ⟨d, hd, hdn, hds⟩ := hmem (x := "C") (y := "B") (by simp)
    obtain ⟨e, he, hen, hes⟩ := hmem (x := "B") (y := "A") (by simp)
    have hB : ClassDef.Descends p.classes "B" "A" := hen ▸ .step he (hes ▸ .refl)
    exact hdn ▸ .step hd (hds ▸ hB)
  obtain ⟨la, ea, i, f, j, g, ha, hma, hf, hg, hlen, -, -, hret, -⟩ :=
    check_overrides hp hc hb hm hdesc
  exact ⟨p, c, lb, eb, la, ea, i, f, j, g, hp, hc, hb, hm, hdesc, ha, hma, hf, hg, hlen, hret⟩

end ObjLang
