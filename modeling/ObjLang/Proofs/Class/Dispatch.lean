import Mathlib.Data.List.Induction
import ObjLang.Proofs.Class.Inherit

/-!
# ObjLang.Proofs.Class.Dispatch — where the slots of the dispatch table lead

The dispatch table holds the slots of one class after the other, and every class knows its stretch.
A call takes the number of a slot from the class of the receiver's type and the stretch from the
class of the object: together they lead to the first definition of the method on the way from the
class of the object up to the root class.
-/

namespace ObjLang

/-! ### Definitions in a list of classes -/

/-- Whether a class defines a method. -/
def ClassDef.Defines (d : ClassDef) (m : String) : Prop := m ∈ d.methods.map (·.name.name)

instance (d : ClassDef) (m : String) : Decidable (d.Defines m) :=
  inferInstanceAs (Decidable (_ ∈ _))

/-- Whether the way up from a class through superclasses meets another one. -/
inductive ClassDef.Descends (classes : List ClassDef) : String → String → Prop where
  | refl {a : String} : Descends classes a a
  | step {d : ClassDef} {b : String} : d ∈ classes → Descends classes d.superclass.name b →
      Descends classes d.name.name b

/-- The first class on the way up from a class that defines the method `m`.  The root class has one
method, which is written nowhere. -/
inductive ClassDef.Provides (classes : List ClassDef) (m : String) : String → String → Prop where
  | root : m = initMethod → Provides classes m rootClass rootClass
  | own {d : ClassDef} : d ∈ classes → d.Defines m → Provides classes m d.name.name d.name.name
  | inherited {d : ClassDef} {owner : String} : d ∈ classes → ¬ d.Defines m →
      Provides classes m d.superclass.name owner → Provides classes m d.name.name owner

namespace ClassTable

variable {classes : List ClassDef} {t : ClassTable}

/-- The way up in a list of classes is the way up in its layouts. -/
theorem LaidOut.below (h : LaidOut classes t) {a b : String}
    (hab : ClassDef.Descends classes a b) : t.Below a b := by
  induction hab with
  | refl => exact .refl
  | step hd _ ih =>
    obtain ⟨c, -, -, hc, -, -⟩ := h.of_class hd
    exact .step hc (h.superclass_eq hd hc) ih

theorem LaidOut.get?_of_descends (h : LaidOut classes t) {a b : String}
    (hab : ClassDef.Descends classes a b) {cb : ClassLayout} (hb : t.get? b = some cb) :
    ∃ ca, t.get? a = some ca := by
  cases hab with
  | refl => exact ⟨cb, hb⟩
  | step hd _ =>
    obtain ⟨c, _, _, hc, -⟩ := h.of_class hd
    exact ⟨c, hc⟩

/-! ### The owner of a slot -/

theorem LaidOut.ne_root (h : LaidOut classes t) {d : ClassDef} (hd : d ∈ classes) :
    d.name.name ≠ rootClass :=
  ne_rootClass h.reserved hd

/-- The root class provides its method and no other one. -/
theorem LaidOut.provides_root (h : LaidOut classes t) {m owner : String} :
    ClassDef.Provides classes m rootClass owner ↔ m = initMethod ∧ owner = rootClass := by
  constructor
  · intro hp
    generalize hn : rootClass = n at hp
    cases hp with
    | root hm => exact ⟨hm, rfl⟩
    | own hd _ => exact absurd hn.symm (h.ne_root hd)
    | inherited hd _ _ => exact absurd hn.symm (h.ne_root hd)
  · rintro ⟨hm, rfl⟩
    exact .root hm

/-- What a class provides: its own definition, or what its superclass provides. -/
theorem LaidOut.provides_class (h : LaidOut classes t) {d : ClassDef} (hd : d ∈ classes)
    {m owner : String} : ClassDef.Provides classes m d.name.name owner ↔
      d.Defines m ∧ owner = d.name.name ∨
        ¬ d.Defines m ∧ ClassDef.Provides classes m d.superclass.name owner := by
  constructor
  · intro hp
    generalize hn : d.name.name = n at hp
    have hsame : ∀ e ∈ classes, e.name.name = d.name.name → e = d :=
      fun e he hen => List.inj_on_of_nodup_map h.classNames he hd hen
    cases hp with
    | root _ => exact absurd hn (h.ne_root hd)
    | own he hdef =>
      obtain rfl := hsame _ he hn.symm
      exact .inl ⟨hdef, rfl⟩
    | inherited he hdef hp =>
      obtain rfl := hsame _ he hn.symm
      exact .inr ⟨hdef, hp⟩
  · rintro (⟨hdef, rfl⟩ | ⟨hdef, hp⟩)
    · exact .own hd hdef
    · exact .inherited hd hdef hp

/-- The entry of a method in a layout belongs to the class that provides the method. -/
theorem Laid.provides (h : LaidOut classes t) {c : ClassLayout}
    (hc : Laid classes t.contains t.layouts c) {m : String} {e : MethodEntry}
    (he : c.methods.find? (·.name == m) = some e) :
    (∀ owner, ClassDef.Provides classes m c.name owner ↔ owner = e.owner) ∧
      e.target = methodTarget e.owner m := by
  induction hc with
  | root _ =>
    have hname : m = initMethod := by
      have hn := List.find?_some he
      obtain rfl := List.mem_singleton.1 (List.mem_of_find?_eq_some he)
      exact (eq_of_beq hn).symm
    subst hname
    obtain rfl := List.mem_singleton.1 (List.mem_of_find?_eq_some he)
    refine ⟨fun owner => ?_, rfl⟩
    exact h.provides_root.trans (and_iff_right rfl)
  | @extend parent _ d base hp _ hd hs hx ih =>
    rw [(h.indexed hp.mem).find?_extend hx] at he
    obtain ⟨fields, methods, -, -, rfl⟩ := extend_eq_ok.1 hx
    by_cases hdef : m ∈ d.methods.map (·.name.name)
    · rw [if_pos hdef] at he
      cases he
      refine ⟨fun owner => (h.provides_class hd).trans ?_, rfl⟩
      simp [ClassDef.Defines, hdef]
    · rw [if_neg hdef] at he
      obtain ⟨howner, htarget⟩ := ih he
      refine ⟨fun owner => (h.provides_class hd).trans ?_, htarget⟩
      rw [← howner owner, hs]
      simp [ClassDef.Defines, hdef]

/-! ### The stretches of the table -/

/-- The stretches of the classes follow each other in the order of the layouts and fill the dispatch
table, and each class knows its own. -/
structure Segmented (t : ClassTable) : Prop where
  order : t.vtable.segments.map Prod.fst = t.layouts.map ClassLayout.name
  segment : ∀ c ∈ t.layouts, t.vtable.segment? c.name = some (c.vtableBase, c.vtableEnd)
  first : ∀ c rest, t.layouts = c :: rest → c.vtableBase = 0
  next : ∀ before b c after, t.layouts = before ++ b :: c :: after → c.vtableBase = b.vtableEnd
  last : ∀ before c, t.layouts = before ++ [c] → c.vtableEnd = t.vtable.entries.length
  disjoint : ∀ b ∈ t.layouts, ∀ c ∈ t.layouts, ∀ i, b.vtableBase ≤ i → i < b.vtableEnd →
    c.vtableBase ≤ i → i < c.vtableEnd → b = c
  covered : ∀ i < t.vtable.entries.length, ∃ c ∈ t.layouts, c.vtableBase ≤ i ∧ i < c.vtableEnd

theorem segmentsFrom_names (start : Nat) (cs : List ClassLayout) :
    (Vtable.segmentsFrom start cs).map Prod.fst = cs.map ClassLayout.name := by
  induction cs generalizing start with
  | nil => rfl
  | cons c cs ih => rw [Vtable.segmentsFrom, List.map_cons, List.map_cons, ih]

/-- Behind some layouts the next stretch starts where theirs end. -/
theorem segmentsFrom_append (start : Nat) (as bs : List ClassLayout) :
    Vtable.segmentsFrom start (as ++ bs)
      = Vtable.segmentsFrom start as ++ Vtable.segmentsFrom (start + slotCount as) bs := by
  induction as generalizing start with
  | nil => rfl
  | cons a as ih =>
    have hcount : slotCount (a :: as) = a.methods.length + slotCount as := by
      simp [slotCount]
    rw [List.cons_append, Vtable.segmentsFrom, Vtable.segmentsFrom, ih, hcount, Nat.add_assoc]
    rfl

theorem length_entries (t : ClassTable) : t.vtable.entries.length = slotCount t.layouts := by
  simp [vtable, slotCount, List.length_flatMap]

/-- Of two places in a list, one is before the other or they are the same. -/
theorem append_cons_cases {α : Type} {as bs cs ds : List α} {a c : α}
    (h : as ++ a :: bs = cs ++ c :: ds) :
    (∃ mid, cs = as ++ a :: mid) ∨ (∃ mid, as = cs ++ c :: mid) ∨ a = c := by
  obtain ⟨rest, rfl, hrest⟩ | ⟨rest, rfl, hrest⟩ := List.append_eq_append_iff.1 h
  · cases rest with
    | nil => exact .inr (.inr (List.cons.inj hrest).1)
    | cons r rest =>
      obtain ⟨rfl, -⟩ := List.cons.inj hrest
      exact .inl ⟨rest, rfl⟩
  · cases rest with
    | nil => exact .inr (.inr (List.cons.inj hrest).1.symm)
    | cons r rest =>
      obtain ⟨rfl, -⟩ := List.cons.inj hrest
      exact .inr (.inl ⟨rest, rfl⟩)

/-- The stretch of a class ends before that of a later one starts. -/
theorem Tiled.vtableEnd_le {layouts before mid after : List ClassLayout} (h : Tiled layouts)
    {b c : ClassLayout} (hl : layouts = (before ++ b :: mid) ++ c :: after) :
    b.vtableEnd ≤ c.vtableBase := by
  have hb : b.vtableBase = slotCount before := by
    refine h before b (mid ++ c :: after) ?_
    rw [hl, List.append_assoc, List.cons_append]
  have hcount : slotCount (b :: mid) = b.methods.length + slotCount mid := by
    simp [slotCount]
  rw [h _ c after hl, slotCount_append, hcount, ClassLayout.vtableEnd, hb]
  omega

theorem covered_of_tiled {layouts : List ClassLayout} (h : Tiled layouts) {i : Nat}
    (hi : i < slotCount layouts) : ∃ c ∈ layouts, c.vtableBase ≤ i ∧ i < c.vtableEnd := by
  -- from the end, since a stretch starts where those before it end
  induction layouts using List.reverseRecOn with
  | nil => exact absurd hi (Nat.not_lt_zero i)
  | append_singleton cs c ih =>
    have hbase : c.vtableBase = slotCount cs := h cs c [] rfl
    have hcount : slotCount [c] = c.methods.length := by
      simp [slotCount]
    rw [slotCount_append, hcount] at hi
    by_cases hlt : i < slotCount cs
    · have hcs : Tiled cs := by
        intro before b after hb
        refine h before b (after ++ [c]) ?_
        rw [hb, List.append_assoc, List.cons_append]
      obtain ⟨b, hb, hle, hend⟩ := ih hcs hlt
      exact ⟨b, List.mem_append_left _ hb, hle, hend⟩
    · refine ⟨c, List.mem_append_right _ (List.mem_singleton_self c), ?_, ?_⟩
      · omega
      · rw [ClassLayout.vtableEnd]
        omega

theorem LaidOut.segmented (h : LaidOut classes t) : t.Segmented where
  order := segmentsFrom_names 0 t.layouts
  segment := by
    intro c hc
    obtain ⟨before, after, heq⟩ := List.append_of_mem hc
    have hbase := h.tiled before c after heq
    have hnot : c.name ∉ before.map ClassLayout.name := by
      have hnd := h.names
      rw [heq, List.map_append, List.map_cons, List.nodup_append] at hnd
      exact fun hmem => hnd.2.2 _ hmem _ List.mem_cons_self rfl
    have hnone : List.lookup c.name (Vtable.segmentsFrom 0 before) = none := by
      refine List.lookup_eq_none_iff.2 fun p hp => ?_
      have hmem : p.1 ∈ before.map ClassLayout.name := by
        rw [← segmentsFrom_names 0 before]
        exact List.mem_map_of_mem hp
      simpa using fun hpc : c.name = p.1 => hnot (hpc ▸ hmem)
    rw [Vtable.segment?, vtable, heq, segmentsFrom_append, List.lookup_append, hnone,
      Vtable.segmentsFrom, ClassLayout.vtableEnd, hbase]
    simp
  first := fun c rest heq => h.tiled [] c rest heq
  next := by
    intro before b c after heq
    have hb := h.tiled before b (c :: after) heq
    have hc := h.tiled (before ++ [b]) c after (by rw [heq, List.append_assoc]; rfl)
    rw [hc, slotCount_append, ClassLayout.vtableEnd, hb]
    simp [slotCount]
  last := by
    intro before c heq
    have hc := h.tiled before c [] heq
    rw [length_entries, heq, slotCount_append, ClassLayout.vtableEnd, hc]
    simp [slotCount]
  disjoint := by
    intro b hb c hc i hbi hib hci hic
    obtain ⟨as, bs, heq⟩ := List.append_of_mem hb
    obtain ⟨cs, ds, heq'⟩ := List.append_of_mem hc
    obtain ⟨mid, hcs⟩ | ⟨mid, has⟩ | hsame := append_cons_cases (heq.symm.trans heq')
    · have hle := h.tiled.vtableEnd_le (hcs ▸ heq')
      omega
    · have hle := h.tiled.vtableEnd_le (has ▸ heq)
      omega
    · exact hsame
  covered := fun i hi => covered_of_tiled h.tiled (length_entries t ▸ hi)

/-! ### Dispatch -/

/-- The slot that a method has in a class leads, in every class that descends from it, to the first
definition of the method on the way up. -/
theorem LaidOut.dispatch (h : LaidOut classes t) {s k : String} {cs : ClassLayout}
    (hs : t.get? s = some cs) (hk : ClassDef.Descends classes k s) {m : String} {slot : Nat}
    {e : MethodEntry} (hm : cs.method? m = some (slot, e)) :
    ∃ ck ek, t.get? k = some ck ∧ ck.method? m = some (slot, ek) ∧
      (∀ owner, ClassDef.Provides classes m k owner ↔ owner = ek.owner) ∧
      t.vtable.lookup? ck.vtableBase slot = some (methodTarget ek.owner m) := by
  obtain ⟨ck, hck⟩ := h.get?_of_descends hk hs
  obtain ⟨hmem, rfl⟩ := get?_mem hck
  obtain ⟨ek, hmethod, hget, hfind⟩ :=
    ((h.below hk).inherits h hck hs).method? (h.indexed hmem) hm
  obtain ⟨howner, htarget⟩ := (h.laid ck hmem).provides h hfind
  refine ⟨ck, ek, hck, hmethod, howner, ?_⟩
  rw [Vtable.lookup?, h.vtable_slot hmem hget, htarget]

/-- The dispatch table of a list of classes: the stretches of the classes fill it in the order of
the layouts, and the slot of a method, taken in the stretch of a class at or below the one that the
slot is known from, leads to the first definition of the method on the way up. -/
theorem resolve_dispatch (classes : List ClassDef) (t : ClassTable)
    (h : resolve classes = .ok t) : t.Segmented ∧
      ∀ s cs, t.get? s = some cs → ∀ k, ClassDef.Descends classes k s →
        ∀ m slot e, cs.method? m = some (slot, e) →
          ∃ ck ek, t.get? k = some ck ∧ ck.method? m = some (slot, ek) ∧
            (∀ owner, ClassDef.Provides classes m k owner ↔ owner = ek.owner) ∧
            t.vtable.lookup? ck.vtableBase slot = some (methodTarget ek.owner m) := by
  have hl := resolve_ok h
  refine ⟨hl.segmented, fun s cs hs k hk m slot e hm => ?_⟩
  exact hl.dispatch hs hk hm

/-- Three classes, each before its superclass: `B` defines the method `f` of `A` again, and `C` adds
nothing. -/
def overriding : List ClassDef :=
  [classDef "C" "B" [], classDef "B" "A" ["f"], classDef "A" rootClass ["f", "g"]]
where
  method (name : String) : FunDef := {
    name := ⟨name, default⟩
    params := []
    ret := none
    decls := []
    vars := []
    nested := []
    body := []
    span := default
    id := none }
  classDef (name superclass : String) (methods : List String) : ClassDef := {
    name := ⟨name, default⟩
    superclass := ⟨superclass, default⟩
    fields := []
    methods := methods.map method
    span := default }

theorem overriding_slot : (resolve overriding).toOption.any (fun t =>
    ((t.get? "A").bind fun c => (c.method? "f").map Prod.fst) == some 1) = true := by
  decide +kernel

theorem overriding_provides : ClassDef.Provides overriding "f" "C" "B" := by
  refine .inherited (d := overriding.classDef "C" "B" []) (by simp [overriding]) (by decide) ?_
  exact .own (d := overriding.classDef "B" "A" ["f"]) (by simp [overriding]) (by decide)

theorem overriding_descends : ClassDef.Descends overriding "C" "A" := by
  refine .step (d := overriding.classDef "C" "B" []) (by simp [overriding]) ?_
  exact .step (d := overriding.classDef "B" "A" ["f"]) (by simp [overriding]) .refl

theorem resolve_dispatch_overriding : ∃ t ck, resolve overriding = .ok t ∧ t.Segmented ∧
    ClassDef.Descends overriding "C" "A" ∧ t.get? "C" = some ck ∧
      t.vtable.lookup? ck.vtableBase 1 = some (methodTarget "B" "f") := by
  have hslot := overriding_slot
  cases ht : resolve overriding with
  | error e => simp [ht, Except.toOption] at hslot
  | ok t =>
    simp only [ht, Except.toOption, Option.any_some, beq_iff_eq, Option.bind_eq_some_iff,
      Option.map_eq_some_iff] at hslot
    obtain ⟨cs, hs, ⟨slot, e⟩, hm, rfl⟩ := hslot
    obtain ⟨hseg, hdispatch⟩ := resolve_dispatch overriding t ht
    obtain ⟨ck, ek, hck, -, howner, hlook⟩ :=
      hdispatch "A" cs hs "C" overriding_descends "f" _ e hm
    have hB := (howner "B").1 overriding_provides
    exact ⟨t, ck, rfl, hseg, overriding_descends, hck, hB ▸ hlook⟩

end ClassTable

end ObjLang
