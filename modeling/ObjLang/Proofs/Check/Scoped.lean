import ObjLang.Proofs.Check.Growth

/-!
# ObjLang.Proofs.Check.Scoped — the names in scope while bodies are checked

The invariant of a check: the scopes, the frames and the levels of the functions that are being
checked lie side by side, and in each scope a name is bound to a variable that stands for the
nearest declaration of it.  Aliases that were put into a scope on the way are no exception, which
is what makes captures of nested functions agree with the variables passed for them.
-/

namespace ObjLang.Check

open Facts

/-! ### One level -/

/-- What a name is bound to in the scope of a function. -/
def BoundOk (F : Facts) (outer : List Level) (l : Level) (f : Frame) (x : String) (v : VarId) :
    Prop :=
  ∃ r, F.vars.get? v = some r ∧ r.name = x ∧
    some (F.vars.home v) = nearest F.module x (l :: outer) ∧
    ((r.isGlobal = true ∧ List.lookup x F.module = some v ∧ l.globals.contains x = true) ∨
      List.lookup x l.own = some v ∨ ∃ k ∈ f.captures, k.name = x ∧ k.inner = v)

/-- The level, the frame and the scopes of a function that is being checked fit together. -/
structure LevelOk (F : Facts) (outer : List Level) (l : Level) (f : Frame) (b : Bindings VarId)
    (u : Bindings FunId) : Prop where
  function : f.function = l.id
  record : ∃ g, F.functions[l.id.index]? = some g ∧ g.parent = outer.head?.map Level.id ∧
    g.captures = [] ∧ g.ret = f.ret
  bound : ∀ x v, List.lookup x b = some v → BoundOk F outer l f x v
  declared : ∀ x, l.declares x = true → (List.lookup x b).isSome = true
  own : ∀ x v, List.lookup x l.own = some v → List.lookup x b = some v
  ownNames : (l.own.map Prod.fst).Nodup
  ownRecords : ∀ x v, (x, v) ∈ l.own → ∃ r, F.vars.get? v = some r ∧ r.name = x ∧
    r.owner = some l.id ∧ r.isCapture = false ∧ r.isGlobal = false
  captures : ∀ k ∈ f.captures, List.lookup k.name b = some k.inner ∧ F.CaptureOk outer l.id k
  captureNames : (f.captures.map Capture.name).Nodup
  globals : ∀ x, l.globals.contains x = true →
    ∃ v, List.lookup x b = some v ∧ List.lookup x F.module = some v ∧
      ∃ r, F.vars.get? v = some r ∧ r.isGlobal = true
  nonlocals : ∀ x, l.nonlocals.contains x = true → f.captures.has x = true
  children : ∀ g id, List.lookup g u = some id → ∃ c, F.functions[id.index]? = some c ∧
    c.parent = some l.id ∧ ∀ k ∈ c.captures, F.CaptureOk (l :: outer) id k

/-- The functions that are being checked, innermost first. -/
inductive Nested (F : Facts) :
    List Level → List Frame → List (Bindings VarId) → List (Bindings FunId) → Prop where
  | nil : Nested F [] [] [] []
  | cons {l outer f fs b bs u us} : LevelOk F outer l f b u → Nested F outer fs bs us →
      Nested F (l :: outer) (f :: fs) (b :: bs) (u :: us)

section

variable {F F' : Facts} {changed : Option FunId} {outer : List Level}

theorem BoundOk.later (h : Later changed F F') {l : Level} {f : Frame} {x : String} {v : VarId}
    (hv : BoundOk F outer l f x v) : BoundOk F' outer l f x v := by
  obtain ⟨r, hr, hn, hh, hcase⟩ := hv
  obtain ⟨r', hr', hn', -, hk', -⟩ := h.vars.isSome hr
  refine ⟨r', hr', hn'.trans hn, ?_, ?_⟩
  · rw [h.home hr, h.module, hh]
  · obtain ⟨hg, hm, hl⟩ | hcase := hcase
    · exact .inl ⟨by simpa [Variable.isGlobal, hk'] using hg, h.module ▸ hm, hl⟩
    · exact .inr hcase

/-- The captures of a function that may have changed stand for what its parent sees. -/
def Finished (F' : Facts) (changed : Option FunId) (lv : List Level) : Prop :=
  ∀ g f l, changed = some g → F'.functions[g.index]? = some f → lv.head? = some l →
    f.parent = some l.id → ∀ k ∈ f.captures, F'.CaptureOk lv g k

theorem LevelOk.later (h : Later changed F F') {l : Level} {f : Frame} {b : Bindings VarId}
    {u : Bindings FunId} (hr : ∀ g, changed = some l.id → F'.functions[l.id.index]? = some g →
      g.captures = [])
    (hc : Finished F' changed (l :: outer)) (hl : LevelOk F outer l f b u) :
    LevelOk F' outer l f b u where
  function := hl.function
  record := by
    obtain ⟨g, hg, hp, hcs, hret⟩ := hl.record
    obtain ⟨ls, cs, hls, hn⟩ := h.functions _ g hg
    refine ⟨_, hls, hp, ?_, hret⟩
    by_cases hid : changed = some l.id
    · exact hr _ hid hls
    · exact (hn hid).2.trans hcs
  bound := fun x v hv => (hl.bound x v hv).later h
  declared := hl.declared
  own := hl.own
  ownNames := hl.ownNames
  ownRecords := by
    intro x v hv
    obtain ⟨r, hr, hn, ho, hc, hg⟩ := hl.ownRecords x v hv
    obtain ⟨r', hr', hn', -, hk', ho', -⟩ := h.vars.isSome hr
    refine ⟨r', hr', hn'.trans hn, ho'.trans ho, ?_, ?_⟩
    · simpa [Variable.isCapture, hk'] using hc
    · simpa [Variable.isGlobal, hk'] using hg
  captures := fun k hk => ⟨(hl.captures k hk).1, (hl.captures k hk).2.later h⟩
  captureNames := hl.captureNames
  globals := by
    intro x hx
    obtain ⟨v, hb, hm, r, hr, hg⟩ := hl.globals x hx
    obtain ⟨r', hr', -, -, hk', -⟩ := h.vars.isSome hr
    exact ⟨v, hb, h.module ▸ hm, r', hr', by simpa [Variable.isGlobal, hk'] using hg⟩
  nonlocals := hl.nonlocals
  children := by
    intro g id hg
    obtain ⟨c, hcr, hp, hk⟩ := hl.children g id hg
    obtain ⟨ls, cs, hls, hn⟩ := h.functions id c hcr
    refine ⟨_, hls, hp, fun k hkc => ?_⟩
    by_cases hid : changed = some id
    · exact hc id _ l hid hls rfl hp k hkc
    · obtain ⟨rfl, rfl⟩ := hn hid
      exact (hk k hkc).later h

theorem Nested.later (h : Later changed F F')
    (hc : ∀ g f, changed = some g → F'.functions[g.index]? = some f → f.captures = [])
    {lv : List Level} {fs : List Frame} {bs : List (Bindings VarId)} {us : List (Bindings FunId)}
    (hn : Nested F lv fs bs us) : Nested F' lv fs bs us := by
  induction hn with
  | nil => exact .nil
  | cons hl _ ih =>
    refine .cons (hl.later h (fun g hg => hc _ g hg) ?_) ih
    intro g f _ hg hf _ _ k hk
    rw [hc g f hg hf] at hk
    exact absurd hk List.not_mem_nil

/-- A function comes after those that it is nested in. -/
theorem Nested.before {lv : List Level} {fs : List Frame} {bs : List (Bindings VarId)}
    {us : List (Bindings FunId)} (hn : Nested F lv fs bs us) (ho : F.functions.Ordered)
    {id : FunId} {f : Function} (hf : F.functions[id.index]? = some f)
    (hp : f.parent = lv.head?.map Level.id) : ∀ l ∈ lv, l.id.index < id.index := by
  induction hn generalizing id f with
  | nil => simp
  | @cons l outer fr fs b bs u us hl _ ih =>
    obtain ⟨g, hg, hgp, -⟩ := hl.record
    have hlt : l.id.index < id.index := ho id f l.id hf hp
    intro m hm
    obtain rfl | hm := List.mem_cons.1 hm
    · exact hlt
    · exact Nat.lt_trans (ih hg hgp m hm) hlt

theorem Nested.head_before {l : Level} {lv : List Level} {fs : List Frame}
    {bs : List (Bindings VarId)} {us : List (Bindings FunId)}
    (hn : Nested F (l :: lv) fs bs us) (ho : F.functions.Ordered) :
    ∀ m ∈ lv, m.id.index < l.id.index := by
  cases hn with
  | cons hl hrest =>
    obtain ⟨g, hg, hgp, -⟩ := hl.record
    exact hrest.before ho hg hgp

/-- When a function is finished, the functions around it see its captures. -/
theorem Nested.finished {id : FunId} {f : Function} (h : Later (some id) F F')
    (hf : F'.functions[id.index]? = some f) {lv : List Level}
    {fs : List Frame} {bs : List (Bindings VarId)} {us : List (Bindings FunId)}
    (hn : Nested F lv fs bs us) (hne : ∀ l ∈ lv, l.id.index < id.index)
    (hc : ∀ l outer, lv = l :: outer → f.parent = some l.id →
      ∀ k ∈ f.captures, F'.CaptureOk lv id k)
    (hout : ∀ l ∈ lv.tail, f.parent ≠ some l.id) : Nested F' lv fs bs us := by
  induction hn with
  | nil => exact .nil
  | @cons l outer fr fs b bs u us hl hrest ih =>
    have hlt := hne l List.mem_cons_self
    refine .cons (hl.later h (fun g hg => ?_) ?_) (ih ?_ ?_ ?_)
    · cases hg
      omega
    · intro g f' l' hg hf' hl' hp
      cases hg
      cases hl'
      cases hf.symm.trans hf'
      exact hc l outer rfl hp
    · exact fun m hm => hne m (List.mem_cons_of_mem _ hm)
    · rintro m rest rfl hp
      exact absurd hp (hout m List.mem_cons_self)
    · exact fun m hm => hout m (List.mem_of_mem_tail hm)

/-- A name that is found in the scopes of some functions stands for the nearest declaration. -/
theorem Nested.lookup {lv : List Level} {fs : List Frame} {bs : List (Bindings VarId)}
    {us : List (Bindings FunId)} (hn : Nested F lv fs bs us) {x : String} {v : VarId}
    (h : bs.findSome? (List.lookup x) = some v) :
    ∃ r, F.vars.get? v = some r ∧ r.name = x ∧
      some (F.vars.home v) = nearest F.module x lv ∧
      (r.isGlobal = true → List.lookup x F.module = some v) := by
  induction hn with
  | nil => simp at h
  | @cons l outer f fs b bs u us hl _ ih =>
    cases hb : List.lookup x b with
    | some w =>
      simp only [List.findSome?_cons, hb, Option.some.injEq] at h
      subst h
      obtain ⟨r, hr, hx, hh, hcase⟩ := hl.bound x w hb
      refine ⟨r, hr, hx, hh, fun hg => ?_⟩
      obtain ⟨-, hm, -⟩ | hown | ⟨k, hk, rfl, rfl⟩ := hcase
      · exact hm
      · obtain ⟨r', hr', -, -, -, hg'⟩ := hl.ownRecords x w (Bindings.mem_of_lookup hown)
        rw [hr] at hr'
        cases hr'
        simp [hg] at hg'
      · obtain ⟨⟨r', hr', -, hk', -⟩, -⟩ := (hl.captures k hk).2
        rw [hr] at hr'
        cases hr'
        simp [Variable.isGlobal, hk'] at hg
    | none =>
      simp only [List.findSome?_cons, hb] at h
      have hd : l.declares x = false := by
        cases hd : l.declares x with
        | false => rfl
        | true => simpa [hb] using hl.declared x hd
      rw [nearest_of_not_declared hd]
      exact ih h

end

/-! ### Binding a name -/

/-- Levels that differ at most in what they say of `x`. -/
structure Level.Adds (l l' : Level) (x : String) : Prop where
  id : l'.id = l.id
  own : ∀ y, y ≠ x → List.lookup y l'.own = List.lookup y l.own
  globals : ∀ y, y ≠ x → l'.globals.contains y = l.globals.contains y
  nonlocals : ∀ y, y ≠ x → l'.nonlocals.contains y = l.nonlocals.contains y

theorem Level.Adds.nearest {l l' : Level} {x y : String} (h : l.Adds l' x) (hy : y ≠ x)
    (module : Bindings VarId) (outer : List Level) :
    nearest module y (l' :: outer) = nearest module y (l :: outer) := by
  simp only [Check.nearest, h.own y hy, h.globals y hy]

theorem Level.Adds.declares {l l' : Level} {x y : String} (h : l.Adds l' x) (hy : y ≠ x) :
    l'.declares y = l.declares y := by
  simp only [Level.declares, h.own y hy, h.globals y hy, h.nonlocals y hy]

section

variable {F : Facts} {outer : List Level} {l l' : Level} {f f' : Frame} {b : Bindings VarId}
  {u : Bindings FunId} {x : String} {v : VarId}

/-- A new binding of a name that the innermost scope does not know. -/
structure Fits (F : Facts) (outer : List Level) (l l' : Level) (f f' : Frame) (u : Bindings FunId)
    (x : String) (v : VarId) : Prop where
  adds : l.Adds l' x
  function : f'.function = f.function
  ret : f'.ret = f.ret
  bound : BoundOk F outer l' f' x v
  own : ∀ w, List.lookup x l'.own = some w → w = v
  ownNames : (l'.own.map Prod.fst).Nodup
  ownRecords : ∀ y w, (y, w) ∈ l'.own → ∃ r, F.vars.get? w = some r ∧ r.name = y ∧
    r.owner = some l.id ∧ r.isCapture = false ∧ r.isGlobal = false
  kept : ∀ k ∈ f.captures, k ∈ f'.captures
  captures : ∀ k ∈ f'.captures,
    k ∈ f.captures ∨ (k.name = x ∧ k.inner = v ∧ F.CaptureOk outer l.id k)
  captureNames : (f'.captures.map Capture.name).Nodup
  globals : l'.globals.contains x = true →
    List.lookup x F.module = some v ∧ ∃ r, F.vars.get? v = some r ∧ r.isGlobal = true
  nonlocals : l'.nonlocals.contains x = true → f'.captures.has x = true
  children : u = [] ∨ nearest F.module x (l' :: outer) = nearest F.module x (l :: outer)

theorem LevelOk.not_declared (hl : LevelOk F outer l f b u) (hx : List.lookup x b = none) :
    l.declares x = false := by
  cases hd : l.declares x with
  | false => rfl
  | true => simpa [hx] using hl.declared x hd

/-- A capture bears no name of a parameter or variable, and none that is declared global. -/
theorem LevelOk.capture_name (hl : LevelOk F outer l f b u) {k : Capture} (hk : k ∈ f.captures) :
    List.lookup k.name l.own = none ∧ l.globals.contains k.name = false := by
  obtain ⟨hb, ⟨r, hr, -, hkind, -⟩, -⟩ := hl.captures k hk
  constructor
  · cases ho : List.lookup k.name l.own with
    | none => rfl
    | some w =>
      have hw : w = k.inner := Option.some.inj ((hl.own _ w ho).symm.trans hb)
      obtain ⟨r', hr', -, -, hc, -⟩ := hl.ownRecords _ w (Bindings.mem_of_lookup ho)
      rw [hw] at hr'
      cases hr.symm.trans hr'
      simp [Variable.isCapture, hkind] at hc
  · cases hg : l.globals.contains k.name with
    | false => rfl
    | true =>
      obtain ⟨w, hbw, -, r', hr', hg'⟩ := hl.globals _ hg
      have hw : w = k.inner := Option.some.inj (hbw.symm.trans hb)
      rw [hw] at hr'
      cases hr.symm.trans hr'
      simp [Variable.isGlobal, hkind] at hg'

theorem LevelOk.bind (hl : LevelOk F outer l f b u) (hx : List.lookup x b = none)
    (h : Fits F outer l l' f f' u x v) : LevelOk F outer l' f' (b.insert x v) u := by
  have hne : ∀ {y w}, List.lookup y b = some w → y ≠ x := by
    rintro y w hy rfl
    simp [hx] at hy
  refine ⟨?_, ?_, ?_, ?_, ?_, h.ownNames, h.adds.id ▸ h.ownRecords, ?_, h.captureNames, ?_, ?_, ?_⟩
  · rw [h.function, hl.function, h.adds.id]
  · rw [h.adds.id, h.ret]
    exact hl.record
  · intro y w hw
    by_cases hy : y = x
    · subst hy
      rw [Bindings.lookup_insert_self, Option.some.injEq] at hw
      exact hw ▸ h.bound
    · rw [Bindings.lookup_insert_of_ne hy] at hw
      obtain ⟨r, hr, hn, hh, hcase⟩ := hl.bound y w hw
      refine ⟨r, hr, hn, by rw [h.adds.nearest hy, hh], ?_⟩
      obtain ⟨hg, hm, hgl⟩ | hown | ⟨k, hk, hky⟩ := hcase
      · exact .inl ⟨hg, hm, (h.adds.globals y hy).trans hgl⟩
      · exact .inr (.inl ((h.adds.own y hy).trans hown))
      · exact .inr (.inr ⟨k, h.kept k hk, hky⟩)
  · intro y hy
    by_cases hyx : y = x
    · rw [hyx, Bindings.lookup_insert_self]
      rfl
    · rw [Bindings.lookup_insert_of_ne hyx]
      exact hl.declared y ((h.adds.declares hyx).symm.trans hy)
  · intro y w hw
    by_cases hy : y = x
    · subst hy
      rw [Bindings.lookup_insert_self, h.own w hw]
    · rw [Bindings.lookup_insert_of_ne hy]
      exact hl.own y w ((h.adds.own y hy).symm.trans hw)
  · intro k hk
    rw [h.adds.id]
    obtain hk | ⟨rfl, rfl, hok⟩ := h.captures k hk
    · obtain ⟨hb, hok⟩ := hl.captures k hk
      exact ⟨by rw [Bindings.lookup_insert_of_ne (hne hb), hb], hok⟩
    · exact ⟨Bindings.lookup_insert_self _ _ _, hok⟩
  · intro y hy
    by_cases hyx : y = x
    · subst hyx
      exact ⟨v, Bindings.lookup_insert_self _ _ _, h.globals hy⟩
    · obtain ⟨w, hb, hm⟩ := hl.globals y ((h.adds.globals y hyx).symm.trans hy)
      exact ⟨w, by rw [Bindings.lookup_insert_of_ne hyx, hb], hm⟩
  · intro y hy
    by_cases hyx : y = x
    · subst hyx
      exact h.nonlocals hy
    · have hhas := hl.nonlocals y ((h.adds.nonlocals y hyx).symm.trans hy)
      obtain ⟨k, hk, hn⟩ := Captures.has_eq_true.1 hhas
      exact Captures.has_eq_true.2 ⟨k, h.kept k hk, hn⟩
  · intro g id hg
    obtain ⟨c, hc, hp, hcs⟩ := hl.children g id hg
    refine ⟨c, hc, hp.trans (by rw [h.adds.id]), fun k hk => ⟨(hcs k hk).1, ?_⟩⟩
    obtain rfl | hnear := h.children
    · simp at hg
    · by_cases hkx : k.name = x
      · rw [hkx, hnear, ← hkx]
        exact (hcs k hk).2
      · rw [h.adds.nearest hkx]
        exact (hcs k hk).2

end

end ObjLang.Check
