import Mathlib.Data.List.Nodup
import Mathlib.Data.List.Perm.Subperm
import ObjLang.Class.Table
import ObjLang.Proofs.Runs

/-!
# ObjLang.Proofs.Class.Rounds — layouts, one superclass after the other

`Laid` is the way a layout comes about: that of the root class, or an extension of a layout by a
class definition.  Layouts are built in rounds: a round takes the first layout whose subclasses are
missing and puts their layouts behind the others.  No class is met twice, so the rounds end, and they
leave out no class whose superclass has a layout.
-/

namespace ObjLang

namespace ClassTable

/-! ### How layouts come about -/

/-- Layouts that come from the root class by extension with classes of a list, within some
layouts. -/
inductive Laid (classes : List ClassDef) (isClass : String → Bool) (layouts : List ClassLayout) :
    ClassLayout → Prop where
  | root : .root ∈ layouts → Laid classes isClass layouts .root
  | extend {parent c : ClassLayout} {d : ClassDef} {base : Nat} :
      Laid classes isClass layouts parent → c ∈ layouts → d ∈ classes →
      d.superclass.name = parent.name → ClassLayout.extend isClass parent base d = .ok c →
      Laid classes isClass layouts c

/-- The slots of each layout start behind those of the layouts before it. -/
def Tiled (layouts : List ClassLayout) : Prop :=
  ∀ before c after, layouts = before ++ c :: after → c.vtableBase = slotCount before

/-- A class comes after its superclass. -/
def ParentsFirst (layouts : List ClassLayout) : Prop :=
  ∀ before c after, layouts = before ++ c :: after → ∀ s, c.superclass = some s →
    ∃ p ∈ before, p.name = s

section

variable {classes : List ClassDef} {isClass : String → Bool}

theorem Laid.mem {layouts : List ClassLayout} {c : ClassLayout}
    (h : Laid classes isClass layouts c) : c ∈ layouts := by
  cases h with
  | root h => exact h
  | extend _ h _ _ _ => exact h

theorem Laid.mono {layouts layouts' : List ClassLayout} {c : ClassLayout}
    (h : Laid classes isClass layouts c) (hsub : ∀ e ∈ layouts, e ∈ layouts') :
    Laid classes isClass layouts' c := by
  induction h with
  | root h => exact .root (hsub _ h)
  | extend _ hc hd hs hx ih => exact .extend ih (hsub _ hc) hd hs hx

/-! ### What is refused at once -/

theorem checkNames_eq_ok {seen : List String} {ds : List ClassDef} :
    checkNames seen ds = .ok () ↔ (ds.map (·.name.name)).Nodup ∧
      ∀ d ∈ ds, reservedNames.contains d.name.name = false ∧ d.name.name ∉ seen := by
  induction ds generalizing seen with
  | nil => simp [checkNames]
  | cons d ds ih =>
    simp only [checkNames, List.map_cons, List.nodup_cons, List.forall_mem_cons]
    split
    · next hn =>
      constructor
      · intro h
        cases h
      · rintro ⟨-, ⟨hres, hseen⟩, -⟩
        rw [hres, Bool.false_or] at hn
        exact absurd (List.contains_iff_mem.1 hn) hseen
    · next hn =>
      simp only [Bool.or_eq_true, not_or, Bool.not_eq_true] at hn
      rw [ih]
      constructor
      · rintro ⟨hnd, hall⟩
        refine ⟨⟨fun hmem => ?_, hnd⟩, ⟨hn.1, by simpa using hn.2⟩,
          fun e he => ⟨(hall e he).1, fun hs => ?_⟩⟩
        · obtain ⟨e, he, hen⟩ := List.mem_map.1 hmem
          exact (hall e he).2 (hen ▸ List.mem_cons_self)
        · exact (hall e he).2 (List.mem_cons_of_mem _ hs)
      · rintro ⟨⟨hnot, hnd⟩, -, hall⟩
        refine ⟨hnd, fun e he => ⟨(hall e he).1, fun hs => ?_⟩⟩
        obtain heq | hs := List.mem_cons.1 hs
        · exact hnot (List.mem_map.2 ⟨e, he, heq⟩)
        · exact (hall e he).2 hs

theorem ne_rootClass (hres : ∀ d ∈ classes, reservedNames.contains d.name.name = false)
    {d : ClassDef} (hd : d ∈ classes) : d.name.name ≠ rootClass := by
  intro heq
  have hreserved := hres d hd
  rw [heq] at hreserved
  exact absurd hreserved (by decide)

theorem checkSuperclasses_eq_ok {names : List String} {ds : List ClassDef} :
    checkSuperclasses names ds = .ok () ↔
      ∀ d ∈ ds, d.superclass.name = rootClass ∨ d.superclass.name ∈ names := by
  induction ds with
  | nil => simp [checkSuperclasses]
  | cons d ds ih =>
    simp only [checkSuperclasses, List.forall_mem_cons]
    split
    · next hs =>
      simp only [Bool.or_eq_true, decide_eq_true_eq, List.contains_iff_mem] at hs
      rw [ih]
      exact (and_iff_right hs).symm
    · next hs =>
      simp only [Bool.or_eq_true, decide_eq_true_eq, List.contains_iff_mem] at hs
      constructor
      · intro h
        cases h
      · rintro ⟨h, -⟩
        exact absurd h hs

/-! ### Rounds -/

theorem extend_eq_ok {parent c : ClassLayout} {base : Nat} {d : ClassDef} :
    ClassLayout.extend isClass parent base d = .ok c ↔
      ∃ fields methods,
        ClassLayout.addFields isClass d.name.name parent.methodRows parent.fieldRows d.fields
          = .ok fields ∧
        ClassLayout.addMethods d.name.name fields [] parent.methodRows d.methods = .ok methods ∧
        c = ⟨d.name.name, some parent.name, fields.list, fields.index, methods.list, methods.index,
          base, d.span⟩ := by
  simp only [ClassLayout.extend, except_bind_eq_ok, except_pure_eq_ok]
  constructor
  · rintro ⟨fields, hf, methods, hm, hc⟩
    exact ⟨fields, methods, hf, hm, hc⟩
  · rintro ⟨fields, methods, hf, hm, hc⟩
    exact ⟨fields, hf, methods, hm, hc⟩

/-- The layouts of classes that share a superclass, the first with its slots at `base`. -/
def layKids (isClass : String → Bool) (parent : ClassLayout) (base : Nat) :
    List ClassDef → Except CheckError (List ClassLayout)
  | [] => .ok []
  | d :: ds => do
    let c ← ClassLayout.extend isClass parent base d
    return c :: (← layKids isClass parent c.vtableEnd ds)

/-- The layouts that come from rounds: `done` are the layouts whose subclasses are laid out already,
those in `queue` wait for their turn. -/
def grow (classes : List ClassDef) (isClass : String → Bool) :
    Nat → List ClassLayout → List ClassLayout → Except CheckError (List ClassLayout)
  | 0, done, queue => .ok (done ++ queue)
  | _ + 1, done, [] => .ok done
  | n + 1, done, parent :: queue => do
    let base := slotCount (done ++ parent :: queue)
    let kids ← layKids isClass parent base
      (classes.filter (·.superclass.name == parent.name))
    grow classes isClass n (done ++ [parent]) (queue ++ kids)

/-- What a layout has from its class alone, whatever is in it. -/
theorem extend_head {parent c : ClassLayout} {base : Nat} {d : ClassDef}
    (h : ClassLayout.extend isClass parent base d = .ok c) :
    c.name = d.name.name ∧ c.superclass = some parent.name ∧ c.vtableBase = base := by
  obtain ⟨fields, methods, -, -, rfl⟩ := extend_eq_ok.1 h
  exact ⟨rfl, rfl, rfl⟩

/-- Classes with one superclass are laid out in order. -/
theorem layKids_eq_ok {parent : ClassLayout} {base : Nat} {ds : List ClassDef}
    {cs : List ClassLayout} (h : layKids isClass parent base ds = .ok cs) :
    List.Forall₂ (fun d c => ∃ b, ClassLayout.extend isClass parent b d = .ok c) ds cs ∧
      ∀ before c after, cs = before ++ c :: after → c.vtableBase = base + slotCount before := by
  induction ds generalizing base cs with
  | nil =>
    simp only [layKids, Except.ok.injEq] at h
    subst h
    exact ⟨.nil, by simp⟩
  | cons d ds ih =>
    simp only [layKids, except_bind_eq_ok, except_pure_eq_ok] at h
    obtain ⟨c, hc, cs', hcs, rfl⟩ := h
    obtain ⟨hall, htiled⟩ := ih hcs
    obtain ⟨-, -, hbase⟩ := extend_head hc
    refine ⟨.cons ⟨base, hc⟩ hall, fun before e after he => ?_⟩
    cases before with
    | nil =>
      cases he
      simp [hbase, slotCount]
    | cons b before =>
      have hb : c = b := (List.cons.inj he).1
      rw [htiled before e after (List.cons.inj he).2, ← hb, ClassLayout.vtableEnd, hbase]
      simp only [slotCount, List.flatMap_cons, List.length_append]
      omega

theorem layKids_names {parent : ClassLayout} {base : Nat} {ds : List ClassDef}
    {cs : List ClassLayout} (h : layKids isClass parent base ds = .ok cs) :
    cs.map ClassLayout.name = ds.map (·.name.name) := by
  have hall := (layKids_eq_ok h).1
  clear h
  induction hall with
  | nil => rfl
  | cons hc _ ih =>
    obtain ⟨b, hc⟩ := hc
    rw [List.map_cons, List.map_cons, (extend_head hc).1, ih]

theorem exists_of_mem_layKids {parent c : ClassLayout} {base : Nat} {ds : List ClassDef}
    {cs : List ClassLayout} (h : layKids isClass parent base ds = .ok cs) (hc : c ∈ cs) :
    ∃ d ∈ ds, c.name = d.name.name ∧ ∃ b, ClassLayout.extend isClass parent b d = .ok c := by
  have hall := (layKids_eq_ok h).1
  clear h
  induction hall with
  | nil => exact absurd hc List.not_mem_nil
  | @cons d k _ _ hk _ ih =>
    obtain rfl | hc := List.mem_cons.1 hc
    · obtain ⟨b, hx⟩ := hk
      exact ⟨d, List.mem_cons_self, (extend_head hx).1, b, hx⟩
    · obtain ⟨e, he, hx⟩ := ih hc
      exact ⟨e, List.mem_cons_of_mem _ he, hx⟩

/-! ### Slots and superclasses -/

theorem slotCount_append (as bs : List ClassLayout) :
    slotCount (as ++ bs) = slotCount as + slotCount bs := by
  simp [slotCount]

theorem Tiled.append {as bs : List ClassLayout} (ha : Tiled as)
    (hb : ∀ before c after, bs = before ++ c :: after →
      c.vtableBase = slotCount as + slotCount before) : Tiled (as ++ bs) := by
  intro before c after h
  obtain ⟨rest, rfl, hrest⟩ | ⟨rest, rfl, hrest⟩ := List.append_eq_append_iff.1 h
  · rw [hb rest c after hrest, slotCount_append]
  · cases rest with
    | nil =>
      simp only [List.nil_append] at hrest
      rw [hb [] c after hrest.symm]
      simp [slotCount]
    | cons e rest =>
      have he : c = e := (List.cons.inj hrest).1
      exact ha before c rest (by rw [he])

theorem ParentsFirst.append {as bs : List ClassLayout} (ha : ParentsFirst as)
    (hb : ∀ c ∈ bs, ∀ s, c.superclass = some s → ∃ p ∈ as, p.name = s) :
    ParentsFirst (as ++ bs) := by
  intro before c after h s hs
  obtain ⟨rest, rfl, hrest⟩ | ⟨rest, rfl, hrest⟩ := List.append_eq_append_iff.1 h
  · obtain ⟨p, hp, hn⟩ := hb c (by simp [hrest]) s hs
    exact ⟨p, List.mem_append_left _ hp, hn⟩
  · cases rest with
    | nil =>
      simp only [List.nil_append] at hrest
      obtain ⟨p, hp, hn⟩ := hb c (by simp [← hrest]) s hs
      exact ⟨p, by simpa using hp, hn⟩
    | cons e rest =>
      have he : c = e := (List.cons.inj hrest).1
      exact ha before c rest (by rw [he]) s hs

/-! ### The invariant of the rounds -/

/-- The invariant of laying out classes: `done` are finished, the subclasses of those in `queue` are
still to come. -/
structure GrowOk (classes : List ClassDef) (isClass : String → Bool)
    (done queue : List ClassLayout) : Prop where
  laid : ∀ c ∈ done ++ queue, Laid classes isClass (done ++ queue) c
  origin : ∀ c ∈ done ++ queue, c.name = rootClass ∨
    ∃ d ∈ classes, c.name = d.name.name ∧ ∃ p ∈ done, d.superclass.name = p.name
  names : ((done ++ queue).map ClassLayout.name).Nodup
  tiled : Tiled (done ++ queue)
  parents : ParentsFirst (done ++ queue)
  root : (done ++ queue).head? = some .root

theorem growOk_start (classes : List ClassDef) (isClass : String → Bool) :
    GrowOk classes isClass [] [ClassLayout.root] := by
  refine ⟨?_, ?_, by simp, ?_, ?_, rfl⟩
  · intro c hc
    obtain rfl := List.mem_singleton.1 hc
    exact .root (by simp)
  · intro c hc
    obtain rfl := List.mem_singleton.1 hc
    exact .inl rfl
  · intro before c after hb
    cases before with
    | nil =>
      cases hb
      rfl
    | cons b before => simp at hb
  · intro before c after hb s hs
    cases before with
    | nil =>
      cases hb
      cases hs
    | cons b before => simp at hb

/-- The subclasses of the next class in the queue have no layouts yet: a class with a layout has its
superclass among those finished. -/
theorem GrowOk.not_laid (hnd : (classes.map (·.name.name)).Nodup)
    (hres : ∀ d ∈ classes, reservedNames.contains d.name.name = false)
    {done queue : List ClassLayout} {parent : ClassLayout}
    (h : GrowOk classes isClass done (parent :: queue)) {d : ClassDef} (hd : d ∈ classes)
    (hs : d.superclass.name = parent.name) :
    d.name.name ∉ (done ++ parent :: queue).map ClassLayout.name := by
  intro hmem
  obtain ⟨c, hc, hn⟩ := List.mem_map.1 hmem
  obtain hr | ⟨e, he, hen, p, hp, hps⟩ := h.origin c hc
  · exact ne_rootClass hres hd (hn.symm.trans hr)
  · obtain rfl := List.inj_on_of_nodup_map hnd he hd (hen.symm.trans hn)
    have hnames := h.names
    rw [List.map_append, List.nodup_append] at hnames
    exact hnames.2.2 p.name (List.mem_map_of_mem hp) parent.name (by simp) (hps.symm.trans hs)

/-- A round lays out the subclasses of the next class in the queue. -/
theorem GrowOk.step (hnd : (classes.map (·.name.name)).Nodup)
    (hres : ∀ d ∈ classes, reservedNames.contains d.name.name = false)
    {done queue kids : List ClassLayout} {parent : ClassLayout}
    (h : GrowOk classes isClass done (parent :: queue))
    (hk : layKids isClass parent (slotCount (done ++ parent :: queue))
      (classes.filter (·.superclass.name == parent.name)) = .ok kids) :
    GrowOk classes isClass (done ++ [parent]) (queue ++ kids) := by
  have hlist : done ++ [parent] ++ (queue ++ kids) = (done ++ parent :: queue) ++ kids := by simp
  have hkid : ∀ c ∈ kids, ∃ d ∈ classes, d.superclass.name = parent.name ∧ c.name = d.name.name ∧
      ∃ b, ClassLayout.extend isClass parent b d = .ok c := by
    intro c hc
    obtain ⟨d, hd, hn, hx⟩ := exists_of_mem_layKids hk hc
    obtain ⟨hd, hs⟩ := List.mem_filter.1 hd
    exact ⟨d, hd, eq_of_beq hs, hn, hx⟩
  have hsub : ∀ e ∈ done ++ parent :: queue, e ∈ done ++ [parent] ++ (queue ++ kids) := by
    rw [hlist]
    exact fun e he => List.mem_append_left _ he
  have hdone : ∀ {x}, x ∈ done ++ [parent] ++ (queue ++ kids) →
      x ∈ done ++ parent :: queue ∨ x ∈ kids := by
    intro x hx
    rw [hlist] at hx
    exact List.mem_append.1 hx
  refine ⟨fun c hc => ?_, fun c hc => ?_, ?_, ?_, ?_, ?_⟩
  · obtain hc | hc := hdone hc
    · exact (h.laid c hc).mono hsub
    · obtain ⟨d, hd, hs, -, b, hb⟩ := hkid c hc
      exact .extend ((h.laid parent (by simp)).mono hsub) (by simp [hc]) hd hs hb
  · obtain hc | hc := hdone hc
    · obtain hr | ⟨d, hd, hn, p, hp, hs⟩ := h.origin c hc
      · exact .inl hr
      · exact .inr ⟨d, hd, hn, p, List.mem_append_left _ hp, hs⟩
    · obtain ⟨d, hd, hs, hn, -⟩ := hkid c hc
      exact .inr ⟨d, hd, hn, parent, by simp, hs⟩
  · rw [hlist, List.map_append]
    refine h.names.append ?_ fun x hx hy => ?_
    · rw [layKids_names hk]
      exact (List.filter_sublist.map _).nodup hnd
    · obtain ⟨k, hk, rfl⟩ := List.mem_map.1 hy
      obtain ⟨d, hd, hs, hn, -⟩ := hkid k hk
      exact h.not_laid hnd hres hd hs (hn ▸ hx)
  · rw [hlist]
    exact h.tiled.append (layKids_eq_ok hk).2
  · rw [hlist]
    refine h.parents.append fun c hc s hs => ?_
    obtain ⟨d, -, -, -, b, hx⟩ := hkid c hc
    obtain rfl := Option.some.inj ((extend_head hx).2.1.symm.trans hs)
    exact ⟨parent, by simp, rfl⟩
  · rw [hlist, List.head?_append, h.root]
    rfl

/-! ### The end of the rounds -/

section

variable {done queue : List ClassLayout}

/-- No class is met twice, so there are at most as many layouts as classes. -/
theorem GrowOk.length_le (h : GrowOk classes isClass done queue) :
    done.length + queue.length ≤ classes.length + 1 := by
  have hsub : (done ++ queue).map ClassLayout.name ⊆ rootClass :: classes.map (·.name.name) := by
    intro x hx
    obtain ⟨c, hc, rfl⟩ := List.mem_map.1 hx
    obtain hr | ⟨d, hd, hn, -⟩ := h.origin c hc
    · exact hr ▸ List.mem_cons_self
    · exact List.mem_cons_of_mem _ (List.mem_map.2 ⟨d, hd, hn.symm⟩)
  simpa using (List.subperm_of_subset h.names hsub).length_le

/-- The subclasses of the finished classes are laid out. -/
def Covers (classes : List ClassDef) (done layouts : List ClassLayout) : Prop :=
  ∀ d ∈ classes, d.superclass.name ∈ done.map ClassLayout.name →
    d.name.name ∈ layouts.map ClassLayout.name

theorem Covers.step {parent : ClassLayout} {kids : List ClassLayout} {base : Nat}
    (h : Covers classes done (done ++ parent :: queue))
    (hk : layKids isClass parent base (classes.filter (·.superclass.name == parent.name))
      = .ok kids) : Covers classes (done ++ [parent]) (done ++ [parent] ++ (queue ++ kids)) := by
  intro d hd hs
  have hlist : done ++ [parent] ++ (queue ++ kids) = (done ++ parent :: queue) ++ kids := by simp
  rw [hlist, List.map_append, List.mem_append]
  rw [List.map_append, List.mem_append, List.map_cons, List.map_nil, List.mem_singleton] at hs
  obtain hs | hs := hs
  · exact .inl (h d hd hs)
  · rw [layKids_names hk]
    exact .inr (List.mem_map.2 ⟨d, List.mem_filter.2 ⟨hd, beq_iff_eq.2 hs⟩, rfl⟩)

variable (hnd : (classes.map (·.name.name)).Nodup)
  (hres : ∀ d ∈ classes, reservedNames.contains d.name.name = false)

include hnd hres

/-- The queue is empty before the number of steps is used up. -/
theorem grow_finishes {n : Nat} {layouts : List ClassLayout}
    (h : GrowOk classes isClass done queue) (hc : Covers classes done (done ++ queue))
    (hn : classes.length + 1 ≤ done.length + n)
    (hg : grow classes isClass n done queue = .ok layouts) :
    GrowOk classes isClass layouts [] ∧ Covers classes layouts layouts := by
  induction n generalizing done queue with
  | zero =>
    have hle := h.length_le
    obtain rfl : queue = [] := List.length_eq_zero_iff.1 (by omega)
    simp only [grow, Except.ok.injEq, List.append_nil] at hg hc
    exact hg ▸ ⟨h, hc⟩
  | succ n ih =>
    cases queue with
    | nil =>
      simp only [grow, Except.ok.injEq, List.append_nil] at hg hc
      exact hg ▸ ⟨h, hc⟩
    | cons parent queue =>
      simp only [grow, except_bind_eq_ok] at hg
      obtain ⟨kids, hk, hg⟩ := hg
      refine ih (h.step hnd hres hk) (hc.step hk) ?_ hg
      rw [List.length_append, List.length_singleton]
      omega

/-- More steps than there are classes change nothing. -/
theorem grow_eq {n m : Nat} (h : GrowOk classes isClass done queue)
    (hn : classes.length + 1 ≤ done.length + n) (hm : classes.length + 1 ≤ done.length + m) :
    grow classes isClass n done queue = grow classes isClass m done queue := by
  have hle := h.length_le
  induction n generalizing done queue m with
  | zero =>
    obtain rfl : queue = [] := List.length_eq_zero_iff.1 (by omega)
    cases m <;> simp [grow]
  | succ n ih =>
    cases queue with
    | nil => cases m <;> simp [grow]
    | cons parent queue =>
      obtain ⟨m, rfl⟩ : ∃ k, m = k + 1 := by
        refine Nat.exists_eq_succ_of_ne_zero ?_
        rintro rfl
        rw [List.length_cons] at hle
        omega
      simp only [grow]
      cases hk : layKids isClass parent (slotCount (done ++ parent :: queue))
          (classes.filter (·.superclass.name == parent.name)) with
      | error e => rfl
      | ok kids =>
        have hlen : (done ++ [parent]).length = done.length + 1 := by simp
        have hstep := h.step hnd hres hk
        exact ih hstep (by omega) (by omega) hstep.length_le

end

/-- The rounds from the root class on, with no bound that matters on their number. -/
theorem grow_done (hnames : checkNames [] classes = .ok ()) {layouts : List ClassLayout}
    (hg : grow classes isClass (classes.length + 1) [] [ClassLayout.root] = .ok layouts) :
    GrowOk classes isClass layouts [] ∧ Covers classes layouts layouts := by
  obtain ⟨hnd, hres⟩ := checkNames_eq_ok.1 hnames
  have hcovers : Covers classes [] ([] ++ [ClassLayout.root]) :=
    fun d _ hs => absurd hs List.not_mem_nil
  exact grow_finishes hnd (fun d hd => (hres d hd).1) (growOk_start classes _) hcovers
    (by simp) hg

end

end ClassTable

end ObjLang
