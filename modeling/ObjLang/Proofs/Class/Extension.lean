import ObjLang.Proofs.Class.Subclass

/-!
# ObjLang.Proofs.Class.Extension — layouts extend those above them

A class starts with the fields and the method slots of every class above it, so what is compiled for
a receiver of the upper class finds its fields and slots in an object of the lower one.  The
positions of names are kept beside the rows, and along every chain of extensions the two agree.
-/

namespace ObjLang

/-! ### Names of an extended layout -/

namespace ClassLayout

variable {isClass : String → Bool} {p c : ClassLayout} {b : Nat} {d : ClassDef} {x : String}

theorem names_of_fieldOf {owner : String} {ds : List VarDef} {fs : List FieldLayout}
    (h : List.Forall₂ (FieldOf isClass owner) ds fs) :
    fs.map FieldLayout.name = ds.map (·.var.name.name) := by
  induction h with
  | nil => rfl
  | cons hf _ ih => rw [List.map_cons, List.map_cons, hf.1, ih]

/-- The fields of a class have the names that it gives them, behind those from above. -/
theorem Indexed.fieldNames_extend (hp : p.Indexed) (h : ClassLayout.extend isClass p b d = .ok c) :
    c.fields.map FieldLayout.name
      = p.fields.map FieldLayout.name ++ d.fields.map (·.var.name.name) := by
  obtain ⟨fields, methods, hf, -, rfl⟩ := ClassTable.extend_eq_ok.1 h
  obtain ⟨⟨own, hlist, hown⟩, -⟩ := addFields_ok hp.fields hf
  have happend : fields.list = p.fields ++ own := hlist
  rw [happend, List.map_append, names_of_fieldOf hown]

theorem mem_names_iff_find? (ms : List MethodEntry) :
    x ∈ ms.map MethodEntry.name ↔ (ms.find? (·.name == x)).isSome = true := by
  rw [List.find?_isSome, List.mem_map]
  exact exists_congr fun e => and_congr_right fun _ => beq_iff_eq.symm

theorem Indexed.mem_methodNames_extend (hp : p.Indexed)
    (h : ClassLayout.extend isClass p b d = .ok c) : x ∈ c.methods.map MethodEntry.name ↔
      x ∈ d.methods.map (·.name.name) ∨ x ∈ p.methods.map MethodEntry.name := by
  rw [mem_names_iff_find? c.methods, hp.find?_extend h, mem_names_iff_find? p.methods]
  split
  · next hx => simp [hx]
  · next hx => simp [hx]

/-- What a class definition has to give for its layout to extend another one: new names for fields,
none of them twice; method names, none of them twice or that of a field; and types that exist. -/
structure Extendable (isClass : String → Bool) (p : ClassLayout) (d : ClassDef) : Prop where
  fieldNames : (d.fields.map (·.var.name.name)).Nodup
  newFields : ∀ f ∈ d.fields, f.var.name.name ∉ p.fields.map FieldLayout.name ∧
    f.var.name.name ∉ p.methods.map MethodEntry.name
  fieldTypes : ∀ f ∈ d.fields, ∃ ty, Ty.ofName isClass f.var.type.name = .ok ty
  methodNames : (d.methods.map (·.name.name)).Nodup
  newMethods : ∀ m ∈ d.methods, m.name.name ∉ p.fields.map FieldLayout.name ∧
    m.name.name ∉ d.fields.map (·.var.name.name)

theorem Indexed.extend_isOk (hp : p.Indexed) :
    (∃ c, ClassLayout.extend isClass p b d = .ok c) ↔ Extendable isClass p d := by
  have hhas : ∀ {fields : Rows FieldLayout}, addFields isClass d.name.name p.methodRows p.fieldRows
      d.fields = .ok fields → ∀ x, fields.has x = false ↔
        x ∉ p.fields.map FieldLayout.name ∧ x ∉ d.fields.map (·.var.name.name) := by
    intro fields hf x
    obtain ⟨⟨own, hlist, hown⟩, hx⟩ := addFields_ok hp.fields hf
    have happend : fields.list = p.fields ++ own := hlist
    rw [hx.has_eq_false, happend, List.map_append, names_of_fieldOf hown, List.mem_append, not_or]
  have hold : ∀ x, p.fieldRows.has x = false ↔ x ∉ p.fields.map FieldLayout.name :=
    fun x => hp.fields.has_eq_false
  have hslot : ∀ x, p.methodRows.has x = false ↔ x ∉ p.methods.map MethodEntry.name :=
    fun x => hp.methods.has_eq_false
  constructor
  · rintro ⟨c, hc⟩
    obtain ⟨fields, methods, hf, hm, -⟩ := ClassTable.extend_eq_ok.1 hc
    obtain ⟨hnd, hnew⟩ := (addFields_isOk hp.fields).1 ⟨fields, hf⟩
    obtain ⟨hmnd, hmnew⟩ := addMethods_isOk.1 ⟨methods, hm⟩
    exact ⟨hnd, fun f hfd => ⟨(hold _).1 (hnew f hfd).1, (hslot _).1 (hnew f hfd).2.1⟩,
      fun f hfd => (hnew f hfd).2.2, hmnd, fun m hmd => (hhas hf _).1 (hmnew m hmd).2⟩
  · intro h
    obtain ⟨fields, hf⟩ : ∃ fields, addFields isClass d.name.name p.methodRows p.fieldRows d.fields
        = .ok fields := by
      refine (addFields_isOk hp.fields).2 ⟨h.fieldNames, fun f hfd => ⟨?_, ?_, h.fieldTypes f hfd⟩⟩
      · exact (hold _).2 (h.newFields f hfd).1
      · exact (hslot _).2 (h.newFields f hfd).2
    obtain ⟨methods, hm⟩ : ∃ methods, addMethods d.name.name fields [] p.methodRows d.methods
        = .ok methods :=
      addMethods_isOk.2 ⟨h.methodNames, fun m hmd =>
        ⟨List.not_mem_nil, (hhas hf _).2 (h.newMethods m hmd)⟩⟩
    exact ⟨_, ClassTable.extend_eq_ok.2 ⟨fields, methods, hf, hm, rfl⟩⟩

/-- Fields and methods of a layout have different names. -/
def Disjoint (c : ClassLayout) : Prop :=
  (c.fields.map FieldLayout.name).Disjoint (c.methods.map MethodEntry.name)

theorem Disjoint.extend (hp : p.Indexed) (hdisjoint : p.Disjoint)
    (h : ClassLayout.extend isClass p b d = .ok c) : c.Disjoint := by
  have hnew := hp.extend_isOk.1 ⟨c, h⟩
  intro x hfield hmethod
  rw [hp.fieldNames_extend h, List.mem_append] at hfield
  rw [hp.mem_methodNames_extend h] at hmethod
  obtain hmethod | hmethod := hmethod
  · obtain ⟨m, hm, rfl⟩ := List.mem_map.1 hmethod
    obtain ⟨hold, hown⟩ := hnew.newMethods m hm
    exact hfield.elim hold hown
  · obtain hfield | hfield := hfield
    · exact hdisjoint hfield hmethod
    · obtain ⟨f, hf, rfl⟩ := List.mem_map.1 hfield
      exact (hnew.newFields f hf).2 hmethod

end ClassLayout

/-! ### Layouts of a program -/

namespace ClassTable

variable {classes : List ClassDef} {t : ClassTable}

theorem LaidOut.disjoint (h : LaidOut classes t) {c : ClassLayout} (hc : c ∈ t.layouts) :
    c.Disjoint := by
  have hlaid := h.laid c hc
  induction hlaid with
  | root => exact List.disjoint_nil_left _
  | extend hp _ _ _ hx ih => exact (ih hp.mem).extend (h.indexed hp.mem) hx

/-- What a class has from one that it descends from: its fields and its method slots, in place. -/
structure Extends (p c : ClassLayout) : Prop where
  fields : p.fields <+: c.fields
  methods : p.methods.map MethodEntry.name <+: c.methods.map MethodEntry.name
  fieldIndex : ∀ x k, p.fieldIndex? x = some k → c.fieldIndex? x = some k
  field : ∀ x k f, p.field? x = some (k, f) → c.field? x = some (k, f)
  offset : ∀ x o, (p.fieldIndex? x).map ClassLayout.fieldOffset = some o →
    (c.fieldIndex? x).map ClassLayout.fieldOffset = some o
  methodSlot : ∀ x k, p.methodSlot? x = some k → c.methodSlot? x = some k

theorem Inherits.extends {p c : ClassLayout} (h : Inherits p c) : Extends p c where
  fields := h.fields
  methods := h.methods
  fieldIndex := h.fieldIndex
  field := fun _ _ _ => h.field?
  offset := by
    intro x o ho
    obtain ⟨k, hk, rfl⟩ := Option.map_eq_some_iff.1 ho
    rw [h.fieldIndex x k hk, Option.map_some]
  methodSlot := h.methodSlot

/-- The positions that a layout keeps are those in its lists, no name stands twice in it, and slot
zero is that of the method for new objects. -/
structure Consistent (c : ClassLayout) : Prop where
  fieldIndex : ∀ x k, c.fieldIndex? x = some k ↔ c.fields[k]?.map FieldLayout.name = some x
  methodSlot : ∀ x k, c.methodSlot? x = some k ↔ c.methods[k]?.map MethodEntry.name = some x
  names : (c.fields.map FieldLayout.name ++ c.methods.map MethodEntry.name).Nodup
  init : c.methodSlot? initMethod = some 0

theorem LaidOut.consistent (h : LaidOut classes t) {c : ClassLayout} (hc : c ∈ t.layouts) :
    Consistent c where
  fieldIndex := by
    intro x k
    rw [← List.getElem?_map]
    exact (h.indexed hc).fields x k
  methodSlot := by
    intro x k
    rw [← List.getElem?_map]
    exact (h.indexed hc).methods x k
  names := (h.indexed hc).fields.nodup.append (h.indexed hc).methods.nodup (h.disjoint hc)
  init := by
    have hroot : t.get? rootClass = some .root :=
      h.get?_eq_some.2 ⟨List.mem_of_head? h.root, rfl⟩
    have hget : t.get? c.name = some c := h.get?_eq_some.2 ⟨hc, rfl⟩
    exact ((h.below_root hc).inherits h hget hroot).methodSlot _ _ (by decide)

/-- The layout of a class extends that of every class that it descends from, and in every layout the
names and the positions kept for them agree. -/
theorem resolve_extends (classes : List ClassDef) (t : ClassTable) (h : resolve classes = .ok t) :
    (∀ s ls, t.get? s = some ls → ∀ c, t.hierarchy.isSubclass c s = true →
      ∃ lc, t.get? c = some lc ∧ Extends ls lc) ∧
    ∀ c ∈ t.layouts, Consistent c := by
  have hl := resolve_ok h
  refine ⟨fun s ls hs c hcs => ?_, fun c hc => hl.consistent hc⟩
  have hbelow := below_of_isSubclass hl hcs
  obtain ⟨lc, hc⟩ : ∃ lc, t.get? c = some lc := by
    cases hbelow with
    | refl => exact ⟨ls, hs⟩
    | step hc _ _ => exact ⟨_, hc⟩
  exact ⟨lc, hc, (hbelow.inherits hl hc hs).extends⟩

theorem shapes_slot : (resolve shapes).toOption.any (fun t =>
    (t.get? "A").isSome && t.hierarchy.isSubclass "B" "A" &&
      (t.get? "B").any fun c => c.methodSlot? "g" == some 2) = true := by
  decide +kernel

theorem resolve_extends_shapes : ∃ t la lb, resolve shapes = .ok t ∧
    t.get? "A" = some la ∧ t.get? "B" = some lb ∧ t.hierarchy.isSubclass "B" "A" = true ∧
      Extends la lb ∧ Consistent lb ∧ lb.methodSlot? "g" = some 2 := by
  obtain ⟨t, ht, hslot⟩ := toOption_any_eq_true.1 shapes_slot
  simp only [Bool.and_eq_true, Option.any_eq_true, Option.isSome_iff_exists, beq_iff_eq] at hslot
  obtain ⟨⟨⟨la, ha⟩, hsub⟩, lb, hb, hg⟩ := hslot
  obtain ⟨hextends, hconsistent⟩ := resolve_extends shapes t ht
  obtain ⟨lc, hc, hx⟩ := hextends "A" la ha "B" hsub
  cases hb.symm.trans hc
  exact ⟨t, la, lb, ht, ha, hb, hsub, hx, hconsistent lb (get?_mem hb).1, hg⟩

end ClassTable

end ObjLang
