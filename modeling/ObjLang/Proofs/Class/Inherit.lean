import Mathlib.Data.List.Forall2
import ObjLang.Proofs.Class.Hierarchy
import ObjLang.Proofs.Class.Layouts
import ObjLang.Proofs.Class.Rows

/-!
# ObjLang.Proofs.Class.Inherit — what a class has from its superclass

A class keeps the fields of its superclass and its method slots where they are, so what is known of
a receiver by its static class holds of an object of any class below.
-/

namespace ObjLang

/-! ### Fields -/

namespace ClassLayout

/-- The layout of a field that a class defines. -/
def FieldOf (isClass : String → Bool) (owner : String) (d : VarDef) (f : FieldLayout) : Prop :=
  f.name = d.var.name.name ∧ Ty.ofName isClass d.var.type.name = .ok f.ty ∧ f.init = d.init ∧
    f.owner = owner

theorem annotated_eq_ok {isClass : String → Bool} {written : Ident} {t : Ty} :
    annotated isClass written = .ok t ↔ Ty.ofName isClass written.name = .ok t := by
  unfold annotated
  cases Ty.ofName isClass written.name <;> simp

theorem addFields_ok {isClass : String → Bool} {owner : String} {methods : Rows MethodEntry}
    {fields fields' : Rows FieldLayout} {ds : List VarDef} (hx : fields.Exact FieldLayout.name)
    (h : addFields isClass owner methods fields ds = .ok fields') :
    (∃ own, fields'.list = fields.list ++ own ∧ List.Forall₂ (FieldOf isClass owner) ds own) ∧
      fields'.Exact FieldLayout.name := by
  induction ds generalizing fields with
  | nil =>
    simp only [addFields, Except.ok.injEq] at h
    subst h
    exact ⟨⟨[], (List.append_nil _).symm, .nil⟩, hx⟩
  | cons d ds ih =>
    simp only [addFields] at h
    split at h
    · cases h
    · next htaken =>
      simp only [Bool.or_eq_true, not_or, Bool.not_eq_true] at htaken
      simp only [except_bind_eq_ok, annotated_eq_ok] at h
      obtain ⟨ty, hty, h⟩ := h
      obtain ⟨⟨own, hlist, hown⟩, hx'⟩ := ih (hx.push ⟨_, ty, d.init, owner⟩ rfl htaken.1) h
      refine ⟨⟨⟨_, ty, d.init, owner⟩ :: own, ?_, .cons ⟨rfl, hty, rfl, rfl⟩ hown⟩, hx'⟩
      rw [hlist, Rows.push, List.append_assoc, List.singleton_append]

/-- Fields can be added if their names are new and different, and their types exist. -/
theorem addFields_isOk {isClass : String → Bool} {owner : String} {methods : Rows MethodEntry}
    {fields : Rows FieldLayout} {ds : List VarDef} (hx : fields.Exact FieldLayout.name) :
    (∃ fields', addFields isClass owner methods fields ds = .ok fields') ↔
      (ds.map (·.var.name.name)).Nodup ∧ ∀ d ∈ ds,
        fields.has d.var.name.name = false ∧ methods.has d.var.name.name = false ∧
          ∃ ty, Ty.ofName isClass d.var.type.name = .ok ty := by
  induction ds generalizing fields with
  | nil => simp [addFields]
  | cons d ds ih =>
    simp only [addFields, List.map_cons, List.nodup_cons, List.forall_mem_cons]
    split
    · next htaken =>
      simp only [Bool.or_eq_true] at htaken
      constructor
      · rintro ⟨_, h⟩
        cases h
      · rintro ⟨-, ⟨hf, hm, -⟩, -⟩
        simp [hf, hm] at htaken
    · next htaken =>
      simp only [Bool.or_eq_true, not_or, Bool.not_eq_true] at htaken
      have hpush : ∀ ty, (fields.push d.var.name.name
          ⟨d.var.name.name, ty, d.init, owner⟩).Exact FieldLayout.name :=
        fun ty => hx.push _ rfl htaken.1
      -- behind the new field, a name is free if it was and is not that of the field
      have hfree : ∀ ty y, (fields.push d.var.name.name ⟨d.var.name.name, ty, d.init, owner⟩).has y
          = false ↔ fields.has y = false ∧ y ≠ d.var.name.name := by
        intro ty y
        rw [(hpush ty).has_eq_false, hx.has_eq_false, Rows.push, List.map_append, List.mem_append,
          not_or, List.map_cons, List.map_nil, List.mem_singleton]
      simp only [except_bind_eq_ok, annotated_eq_ok]
      constructor
      · rintro ⟨fields', ty, hty, h⟩
        obtain ⟨hnd, hall⟩ := (ih (hpush ty)).1 ⟨fields', h⟩
        refine ⟨⟨fun hmem => ?_, hnd⟩, ⟨htaken.1, htaken.2, ty, hty⟩, fun e he => ?_⟩
        · obtain ⟨e, he, heq⟩ := List.mem_map.1 hmem
          exact ((hfree ty _).1 (hall e he).1).2 heq
        · exact ⟨((hfree ty _).1 (hall e he).1).1, (hall e he).2⟩
      · rintro ⟨⟨hnot, hnd⟩, ⟨-, -, ty, hty⟩, hall⟩
        have hne : ∀ e ∈ ds, e.var.name.name ≠ d.var.name.name :=
          fun e he heq => hnot (List.mem_map.2 ⟨e, he, heq⟩)
        obtain ⟨fields', h⟩ := (ih (hpush ty)).2
          ⟨hnd, fun e he => ⟨(hfree ty _).2 ⟨(hall e he).1, hne e he⟩, (hall e he).2⟩⟩
        exact ⟨fields', ty, hty, h⟩

/-! ### Method slots -/

theorem addMethods_ok {owner : String} {fields : Rows FieldLayout} {own : List String}
    {methods methods' : Rows MethodEntry} {ds : List FunDef}
    (hx : methods.Exact MethodEntry.name)
    (h : addMethods owner fields own methods ds = .ok methods') :
    methods.list.map MethodEntry.name <+: methods'.list.map MethodEntry.name ∧
      (ds.map (·.name.name)).Nodup ∧ (∀ d ∈ ds, d.name.name ∉ own) ∧
      (∀ x, methods'.list.find? (·.name == x)
        = if x ∈ ds.map (·.name.name) then some ⟨x, methodTarget owner x, owner⟩
          else methods.list.find? (·.name == x)) ∧
      methods'.Exact MethodEntry.name := by
  induction ds generalizing own methods with
  | nil =>
    simp only [addMethods, Except.ok.injEq] at h
    subst h
    exact ⟨List.prefix_rfl, List.nodup_nil, by simp, by simp, hx⟩
  | cons d ds ih =>
    simp only [addMethods] at h
    split at h
    · cases h
    · next hown =>
      split at h
      · cases h
      · have hname : MethodEntry.name ⟨d.name.name, methodTarget owner d.name.name, owner⟩
          = d.name.name := rfl
        obtain ⟨hpre, hnd, hnot, hfind, hx'⟩ := ih (hx.put _ hname) h
        have hd : d.name.name ∉ ds.map (·.name.name) := by
          intro hmem
          obtain ⟨e, he, hen⟩ := List.mem_map.1 hmem
          exact hnot e he (by simp [hen])
        refine ⟨List.IsPrefix.trans ?_ hpre, List.nodup_cons.2 ⟨hd, hnd⟩, ?_, fun x => ?_, hx'⟩
        · -- the names of the slots stay in place when an entry is put in
          rw [hx.names_put _ hname]
          split
          · exact List.prefix_rfl
          · exact List.prefix_append _ _
        · intro e he
          obtain rfl | he := List.mem_cons.1 he
          · simpa using hown
          · exact fun hm => hnot e he (List.mem_cons_of_mem _ hm)
        · rw [hfind, hx.find?_put _ hname]
          by_cases hx : d.name.name = x
          · subst hx
            simp [hd]
          · have hx' : x ≠ d.name.name := fun h => hx h.symm
            simp [hx, hx']

/-- Methods can be added if their names are different and none is that of a field. -/
theorem addMethods_isOk {owner : String} {fields : Rows FieldLayout} {own : List String}
    {methods : Rows MethodEntry} {ds : List FunDef} :
    (∃ methods', addMethods owner fields own methods ds = .ok methods') ↔
      (ds.map (·.name.name)).Nodup ∧
        ∀ d ∈ ds, d.name.name ∉ own ∧ fields.has d.name.name = false := by
  induction ds generalizing own methods with
  | nil => simp [addMethods]
  | cons d ds ih =>
    simp only [addMethods, List.map_cons, List.nodup_cons, List.forall_mem_cons]
    split
    · next hown =>
      have hmem : d.name.name ∈ own := by simpa using hown
      simp [hmem]
    · next hown =>
      have hnot : d.name.name ∉ own := by simpa using hown
      split
      · next hfield => simp [hfield]
      · next hfield =>
        have hfree : fields.has d.name.name = false := by simpa using hfield
        rw [ih]
        constructor
        · rintro ⟨hnd, hall⟩
          refine ⟨⟨fun hmem => ?_, hnd⟩, ⟨hnot, hfree⟩, fun e he => ?_⟩
          · obtain ⟨e, he, heq⟩ := List.mem_map.1 hmem
            exact (hall e he).1 (heq ▸ List.mem_cons_self)
          · exact ⟨fun hm => (hall e he).1 (List.mem_cons_of_mem _ hm), (hall e he).2⟩
        · rintro ⟨⟨hd, hnd⟩, -, hall⟩
          refine ⟨hnd, fun e he => ⟨fun hm => ?_, (hall e he).2⟩⟩
          obtain heq | hm := List.mem_cons.1 hm
          · exact hd (List.mem_map.2 ⟨e, he, heq⟩)
          · exact (hall e he).1 hm

theorem find?_of_mem_nodup {ms : List MethodEntry} (hnd : (ms.map MethodEntry.name).Nodup)
    {e : MethodEntry} (he : e ∈ ms) : ms.find? (·.name == e.name) = some e := by
  induction ms with
  | nil => exact absurd he List.not_mem_nil
  | cons m ms ih =>
    obtain ⟨hm, hms⟩ := List.nodup_cons.1 hnd
    obtain rfl | he := List.mem_cons.1 he
    · simp
    · have hne : m.name ≠ e.name := fun heq => hm (heq ▸ List.mem_map_of_mem he)
      rw [List.find?_cons_of_neg (by simpa using hne), ih hms he]

/-! ### Looking up by name -/

theorem indexed_root : ClassLayout.root.Indexed where
  fields := by simp [Rows.Exact, fieldRows, root]
  methods := by
    intro x i
    by_cases hx : x = initMethod
    · subst hx
      cases i <;> simp [methodRows, root]
    · have hb : (x == initMethod) = false := by simpa using hx
      cases i <;> simp [methodRows, root, List.lookup_cons, hb, Ne.symm hx]

theorem Indexed.extend {isClass : String → Bool} {p c : ClassLayout} {b : Nat} {d : ClassDef}
    (hp : p.Indexed) (h : ClassLayout.extend isClass p b d = .ok c) : c.Indexed := by
  obtain ⟨fields, methods, hf, hm, rfl⟩ := ClassTable.extend_eq_ok.1 h
  exact ⟨(addFields_ok hp.fields hf).2, (addMethods_ok hp.methods hm).2.2.2.2⟩

/-- The method of a name in an extended layout: the one that the class defines, or that of the
layout extended. -/
theorem Indexed.find?_extend {isClass : String → Bool} {p c : ClassLayout} {b : Nat} {d : ClassDef}
    (hp : p.Indexed) (h : ClassLayout.extend isClass p b d = .ok c) (x : String) :
    c.methods.find? (·.name == x)
      = if x ∈ d.methods.map (·.name.name) then some ⟨x, methodTarget d.name.name x, d.name.name⟩
        else p.methods.find? (·.name == x) := by
  obtain ⟨fields, methods, -, hm, rfl⟩ := ClassTable.extend_eq_ok.1 h
  exact (addMethods_ok hp.methods hm).2.2.2.1 x

theorem method?_eq_some {c : ClassLayout} {x : String} {i : Nat} {e : MethodEntry} :
    c.method? x = some (i, e) ↔ c.methodSlot? x = some i ∧ c.methods[i]? = some e := by
  simp only [method?, Option.bind_eq_bind, Option.bind_eq_some_iff]
  constructor
  · rintro ⟨i, hi, e, he, heq⟩
    cases heq
    exact ⟨hi, he⟩
  · rintro ⟨hi, he⟩
    exact ⟨i, hi, e, he, rfl⟩

theorem Indexed.method?_eq {c : ClassLayout} (hc : c.Indexed) (x : String) :
    (c.method? x).map (·.2) = c.methods.find? (·.name == x) := by
  have hfind : c.methods.find? (·.name == x) = (c.methodSlot? x).bind (c.methods[·]?) :=
    hc.methods.find?_eq x
  rw [hfind, method?]
  cases hi : c.methodSlot? x with
  | none => rfl
  | some i => cases hm : c.methods[i]? <;> simp [hm]

theorem Indexed.target?_eq {c : ClassLayout} (hc : c.Indexed) (x : String) :
    c.target? x = (c.methods.find? (·.name == x)).map MethodEntry.target := by
  rw [← hc.method?_eq, target?, Option.map_map]
  rfl

end ClassLayout

namespace ClassTable

variable {classes : List ClassDef} {t : ClassTable}

/-! ### Classes below others -/

/-- A class is another one or descends from it. -/
inductive Below (t : ClassTable) : String → String → Prop where
  | refl {a : String} : Below t a a
  | step {a s b : String} {c : ClassLayout} : t.get? a = some c → c.superclass = some s →
      Below t s b → Below t a b

theorem Below.trans {a b c : String} (h : t.Below a b) (h' : t.Below b c) : t.Below a c := by
  induction h with
  | refl => exact h'
  | step hg hs _ ih => exact .step hg hs (ih h')

theorem superclass?_eq_some (h : LaidOut classes t) {a s : String}
    (hs : t.hierarchy.superclass? a = some s) :
    ∃ c, t.get? a = some c ∧ c.superclass = some s := by
  have hmem : (a, s) ∈ t.hierarchy := by
    obtain ⟨l₁, l₂, heq, -⟩ := List.lookup_eq_some_iff.1 hs
    rw [heq]
    simp
  obtain ⟨c, hc, hcs⟩ := List.mem_filterMap.1 hmem
  obtain ⟨s', hs', heq⟩ := Option.map_eq_some_iff.1 hcs
  cases heq
  exact ⟨c, h.get?_eq_some.2 ⟨hc, rfl⟩, hs'⟩

theorem below_of_isSubclass (h : LaidOut classes t) {a b : String}
    (hab : t.hierarchy.isSubclass a b = true) : t.Below a b := by
  have hreach := Hierarchy.isSubclass_iff_reaches.1 hab
  induction hreach using Relation.ReflTransGen.head_induction_on with
  | refl => exact .refl
  | head hs hreach ih =>
    obtain ⟨c, hc, hcs⟩ := superclass?_eq_some h hs
    exact .step hc hcs (ih (Hierarchy.isSubclass_iff_reaches.2 hreach))

theorem Laid.indexed {isClass : String → Bool} {layouts : List ClassLayout} {c : ClassLayout}
    (h : Laid classes isClass layouts c) : c.Indexed := by
  induction h with
  | root => exact ClassLayout.indexed_root
  | extend _ _ _ _ hx ih => exact ih.extend hx

theorem LaidOut.indexed (h : LaidOut classes t) {c : ClassLayout} (hc : c ∈ t.layouts) :
    c.Indexed :=
  (h.laid c hc).indexed

/-- What a layout has from one above it. -/
structure Inherits (p c : ClassLayout) : Prop where
  fields : p.fields <+: c.fields
  methods : p.methods.map MethodEntry.name <+: c.methods.map MethodEntry.name
  fieldIndex : ∀ x k, p.fieldIndex? x = some k → c.fieldIndex? x = some k
  methodSlot : ∀ x k, p.methodSlot? x = some k → c.methodSlot? x = some k

theorem Inherits.refl (c : ClassLayout) : Inherits c c :=
  ⟨List.prefix_rfl, List.prefix_rfl, fun _ _ h => h, fun _ _ h => h⟩

theorem Inherits.trans {a b c : ClassLayout} (h : Inherits a b) (h' : Inherits b c) :
    Inherits a c :=
  ⟨h.fields.trans h'.fields, h.methods.trans h'.methods,
    fun x k hk => h'.fieldIndex x k (h.fieldIndex x k hk),
    fun x k hk => h'.methodSlot x k (h.methodSlot x k hk)⟩

/-- A name keeps its position where rows are added behind. -/
theorem lookup_of_prefix {α : Type} {name : α → String} {r r' : Rows α} (hr : r.Exact name)
    (hr' : r'.Exact name) (hpre : r.list.map name <+: r'.list.map name) {x : String} {k : Nat}
    (hk : List.lookup x r.index = some k) : List.lookup x r'.index = some k := by
  have hget := (hr x k).1 hk
  obtain ⟨rest, hrest⟩ := hpre
  rw [hr' x k, ← hrest, List.getElem?_append_left (List.getElem?_eq_some_iff.1 hget).1, hget]

theorem inherits_of_extend {isClass : String → Bool} {p c : ClassLayout} {b : Nat} {d : ClassDef}
    (hp : p.Indexed) (h : ClassLayout.extend isClass p b d = .ok c) : Inherits p c := by
  have hc := hp.extend h
  obtain ⟨fields, methods, hf, hm, rfl⟩ := extend_eq_ok.1 h
  obtain ⟨⟨own, hlist, -⟩, -⟩ := ClassLayout.addFields_ok hp.fields hf
  have hpre := (ClassLayout.addMethods_ok hp.methods hm).1
  have hfields : p.fields <+: fields.list := hlist ▸ List.prefix_append _ _
  exact ⟨hfields, hpre, fun x k => lookup_of_prefix hp.fields hc.fields (hfields.map _),
    fun x k => lookup_of_prefix hp.methods hc.methods hpre⟩

theorem Below.inherits (h : LaidOut classes t) {a b : String} (hab : t.Below a b)
    {ca cb : ClassLayout} (ha : t.get? a = some ca) (hb : t.get? b = some cb) :
    Inherits cb ca := by
  induction hab generalizing ca with
  | refl =>
    cases ha.symm.trans hb
    exact .refl _
  | @step a s b c hc hs _ ih =>
    cases ha.symm.trans hc
    obtain ⟨p, d, base, hp, -, -, hx⟩ := h.superclass hc hs
    exact (ih hp hb).trans (inherits_of_extend (h.indexed (get?_mem hp).1) hx)

theorem Inherits.field? {p c : ClassLayout} (h : Inherits p c) {x : String} {k : Nat}
    {f : FieldLayout} (hf : p.field? x = some (k, f)) : c.field? x = some (k, f) := by
  simp only [ClassLayout.field?, Option.bind_eq_bind, Option.bind_eq_some_iff] at hf ⊢
  obtain ⟨i, hi, g, hg, heq⟩ := hf
  cases heq
  refine ⟨k, h.fieldIndex x k hi, f, ?_, rfl⟩
  obtain ⟨rest, hrest⟩ := h.fields
  rw [← hrest, List.getElem?_append_left (List.getElem?_eq_some_iff.1 hg).1, hg]

/-- A method of a layout has, in one below, the same slot, with an entry of its own. -/
theorem Inherits.method? {p c : ClassLayout} (h : Inherits p c) (hc : c.Indexed) {x : String}
    {k : Nat} {e : MethodEntry} (he : p.method? x = some (k, e)) :
    ∃ e', c.method? x = some (k, e') ∧ c.methods[k]? = some e' ∧
      c.methods.find? (·.name == x) = some e' := by
  have hk := h.methodSlot x k (ClassLayout.method?_eq_some.1 he).1
  have hget := (hc.methods x k).1 hk
  rw [List.getElem?_map, Option.map_eq_some_iff] at hget
  obtain ⟨e', he', -⟩ := hget
  have hmethod : c.method? x = some (k, e') := ClassLayout.method?_eq_some.2 ⟨hk, he'⟩
  refine ⟨e', hmethod, he', ?_⟩
  rw [← hc.method?_eq, hmethod, Option.map_some]

theorem Inherits.exists_method {p c : ClassLayout} (h : Inherits p c) {x : String}
    {e : MethodEntry} (he : p.methods.find? (·.name == x) = some e) :
    ∃ e', c.methods.find? (·.name == x) = some e' := by
  have hx : x ∈ p.methods.map MethodEntry.name :=
    List.mem_map.2 ⟨e, List.mem_of_find?_eq_some he, by simpa using List.find?_some he⟩
  obtain ⟨e', he', hn⟩ := List.mem_map.1 (h.methods.subset hx)
  exact Option.isSome_iff_exists.1 (List.find?_isSome.2 ⟨e', he', by simpa using hn⟩)

/-! ### Dispatch -/

theorem LaidOut.methods_nodup (h : LaidOut classes t) {c : ClassLayout} (hc : c ∈ t.layouts) :
    (c.methods.map MethodEntry.name).Nodup :=
  (h.indexed hc).methods.nodup

/-- A slot of a class leads to the function that the class has under the name of the slot. -/
theorem LaidOut.vtable_slot (h : LaidOut classes t) {c : ClassLayout} (hc : c ∈ t.layouts)
    {slot : Nat} {m : MethodEntry} (hm : c.methods[slot]? = some m) :
    t.vtable.entries[c.vtableBase + slot]? = some m.target := by
  obtain ⟨before, after, heq⟩ := List.append_of_mem hc
  have hbase := h.tiled before c after heq
  have hlt : slot < c.methods.length := (List.getElem?_eq_some_iff.1 hm).1
  have hlen : (before.flatMap fun c => c.methods.map MethodEntry.target).length
      = c.vtableBase := by
    rw [hbase, slotCount, List.length_flatMap, List.length_flatMap]
    simp
  rw [vtable, heq, List.flatMap_append, List.flatMap_cons,
    List.getElem?_append_right (by rw [hlen]; omega), hlen, Nat.add_sub_cancel_left,
    List.getElem?_append_left (by simpa using hlt), List.getElem?_map, hm]
  rfl

end ClassTable

end ObjLang
