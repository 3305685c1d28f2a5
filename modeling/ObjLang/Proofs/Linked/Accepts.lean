import ObjLang.Proofs.Code.Nested
import ObjLang.Proofs.Linked.Variables

/-!
# ObjLang.Proofs.Linked.Accepts — which modules link

The open regions of a body that is being linked are those of the tree read so far.  So a body links
exactly if it is the listing of a tree with known names, and a module links exactly if it is closed.
An `orElse` is accepted in a conditional region that had one before, which makes the difference to
well-formed modules.
-/

namespace ObjLang

open Code (Instr)

/-! ### Regions by their kinds and labels -/

/-- A region without the jumps that wait for its end. -/
def Region.shape : Region → Region
  | .block l _ => .block l []
  | .loop l start => .loop l start
  | .cond _ => .cond []

/-- The labels of regions. -/
def regionLabels (rs : List Region) : List String := rs.filterMap Region.label?

theorem Region.label?_shape (r : Region) : r.shape.label? = r.label? := by
  cases r <;> rfl

theorem regionLabels_shape (rs : List Region) :
    regionLabels (rs.map Region.shape) = regionLabels rs := by
  unfold regionLabels
  rw [List.filterMap_map]
  exact congrArg (List.filterMap · rs) (funext Region.label?_shape)

theorem regionLabels_eq {rs rs' : List Region} (h : rs'.map Region.shape = rs.map Region.shape) :
    regionLabels rs' = regionLabels rs := by
  rw [← regionLabels_shape, h, regionLabels_shape]

theorem exists_cond_of_shape {rs rs' : List Region} {w : List Nat}
    (h : rs'.map Region.shape = (.cond w :: rs : List Region).map Region.shape) :
    ∃ w' rest, rs' = .cond w' :: rest ∧ rest.map Region.shape = rs.map Region.shape := by
  cases rs' with
  | nil => cases h
  | cons r rest =>
    obtain ⟨hr, hrest⟩ := List.cons.inj h
    cases r with
    | cond w' => exact ⟨w', rest, rfl, hrest⟩
    | block l w' => cases hr
    | loop l start => cases hr

/-- A label leads to a region exactly if a region has it. -/
theorem branch_isSome {l : String} {i : Nat} {rs : List Region} :
    (branch l i rs).isSome = true ↔ l ∈ regionLabels rs := by
  induction rs with
  | nil => simp [branch, regionLabels]
  | cons r rs ih =>
    unfold regionLabels at ih ⊢
    rw [List.filterMap_cons]
    cases r with
    | cond w => simpa [branch, Region.label?] using ih
    | block l' w | loop l' start =>
      by_cases hl : l' = l
      · simp [branch, Region.label?, hl]
      · simpa [branch, Region.label?, hl, Ne.symm hl] using ih

theorem branch_shape {l : String} {i t : Nat} {rs rs' : List Region}
    (h : branch l i rs = some (t, rs')) : rs'.map Region.shape = rs.map Region.shape := by
  induction rs generalizing t rs' with
  | nil => cases h
  | cons r rs ih =>
    unfold branch at h
    split at h
    · cases r with
      | block l' w | loop l' start =>
        cases h
        rfl
      | cond w => cases h
    · obtain ⟨⟨t', rest⟩, hrest, heq⟩ := Option.map_eq_some_iff.1 h
      cases heq
      rw [List.map_cons, List.map_cons, ih hrest]

namespace Code

variable {m : Module} {f : Func}

/-! ### Single instructions -/

theorem Func.slot_isOk {x : String} : (∃ k, f.slot x = .ok k) ↔ x ∈ f.params ++ f.locals := by
  unfold Func.slot
  cases hi : lastIndex? x (f.params ++ f.locals) with
  | none => simpa using lastIndex?_eq_none.1 hi
  | some i =>
    have hx := List.mem_of_getElem? (getElem?_of_lastIndex? hi)
    simpa using hx

theorem Module.globalIndex_isOk {x : String} :
    (∃ k, m.globalIndex x = .ok k) ↔ x ∈ m.globals.map (·.name) := by
  unfold Module.globalIndex
  cases hi : lastIndex? x (m.globals.map (·.name)) with
  | none => simpa using lastIndex?_eq_none.1 hi
  | some i =>
    have hx := List.mem_of_getElem? (getElem?_of_lastIndex? hi)
    simpa using hx

theorem Module.functionIndex_isOk {x : String} :
    (∃ k, m.functionIndex x = .ok k) ↔ x ∈ m.functionNames := by
  unfold Module.functionIndex
  cases hi : lastIndex? x m.functionNames with
  | none => simpa using lastIndex?_eq_none.1 hi
  | some i => simpa using List.mem_of_getElem? (getElem?_of_lastIndex? hi)

theorem Module.type?_isSome_iff {t : String} :
    (m.type? t).isSome = true ↔ t ∈ m.types.map (·.name) := by
  simp [Module.type?, List.find?_isSome]

theorem LinkState.jumpTo_shape {s s' : LinkState} {l : String} {jump : Nat → Op}
    (h : s.jumpTo f l jump = .ok s') :
    l ∈ regionLabels s.regions ∧ s'.regions.map Region.shape = s.regions.map Region.shape := by
  unfold LinkState.jumpTo at h
  split at h
  · next t rs hb =>
    cases h
    exact ⟨branch_isSome.1 (by rw [hb]; rfl), branch_shape hb⟩
  · cases h

theorem LinkState.jumpTo_ok {s : LinkState} {l : String} (jump : Nat → Op)
    (h : l ∈ regionLabels s.regions) : ∃ s', s.jumpTo f l jump = .ok s' := by
  obtain ⟨⟨t, rs⟩, hb⟩ := Option.isSome_iff_exists.1 (branch_isSome.2 h)
  exact ⟨_, by rw [LinkState.jumpTo, hb]⟩

/-- An instruction that links, and opens, divides and closes no region, is right in its names and
branches. -/
theorem admits_of_link {s s' : LinkState} {i : Instr} (hi : i.IsPlain)
    (h : s.link m f i = .ok s') :
    f.Admits m (regionLabels s.regions) i ∧
      s'.regions.map Region.shape = s.regions.map Region.shape := by
  cases i with
  | localGet x | localSet x =>
    simp only [LinkState.link, except_bind_eq_ok, except_pure_eq_ok] at h
    obtain ⟨k, hk, rfl⟩ := h
    exact ⟨Func.slot_isOk.1 ⟨k, hk⟩, rfl⟩
  | globalGet x | globalSet x =>
    simp only [LinkState.link, except_bind_eq_ok, except_pure_eq_ok] at h
    obtain ⟨k, hk, rfl⟩ := h
    exact ⟨Module.globalIndex_isOk.1 ⟨k, hk⟩, rfl⟩
  | call g =>
    simp only [LinkState.link, except_bind_eq_ok, except_pure_eq_ok] at h
    obtain ⟨k, hk, rfl⟩ := h
    exact ⟨Module.functionIndex_isOk.1 ⟨k, hk⟩, rfl⟩
  | callIndirect t =>
    simp only [LinkState.link] at h
    split at h
    · next ht =>
      cases h
      exact ⟨Module.type?_isSome_iff.1 (by rw [ht]; rfl), rfl⟩
    · cases h
  | br l | brIf l => exact LinkState.jumpTo_shape h
  | block l | loop l | ifNonzero | orElse | endRegion => exact hi.elim
  | const n | load o | store o | binary op | eqz | drop | ret | unreachable =>
    cases h
    exact ⟨trivial, rfl⟩

/-- An instruction that is right in its names and branches links. -/
theorem link_of_admits {s : LinkState} {i : Instr} (h : f.Admits m (regionLabels s.regions) i) :
    ∃ s', s.link m f i = .ok s' := by
  cases i with
  | localGet x | localSet x =>
    obtain ⟨k, hk⟩ := Func.slot_isOk.2 h
    exact ⟨_, by rw [LinkState.link, hk]; rfl⟩
  | globalGet x | globalSet x =>
    obtain ⟨k, hk⟩ := Module.globalIndex_isOk.2 h
    exact ⟨_, by rw [LinkState.link, hk]; rfl⟩
  | call g =>
    obtain ⟨k, hk⟩ := Module.functionIndex_isOk.2 h
    exact ⟨_, by rw [LinkState.link, hk]; rfl⟩
  | callIndirect t =>
    obtain ⟨t', ht⟩ := Option.isSome_iff_exists.1 (Module.type?_isSome_iff.2 h)
    exact ⟨_, by rw [LinkState.link, ht]; rfl⟩
  | br l => exact LinkState.jumpTo_ok .jump h
  | brIf l => exact LinkState.jumpTo_ok .jumpIf h
  | block l | loop l | ifNonzero | orElse | endRegion => exact h.elim
  | const n | load o | store o | binary op | eqz | drop | ret | unreachable => exact ⟨_, rfl⟩

/-! ### Trees link -/

/-- Linking some code, from a state on, comes to an end and leaves regions of the same kinds and
labels open. -/
def LinksTo (m : Module) (f : Func) (s : LinkState) (code : List Instr) (rs : List Region) : Prop :=
  ∃ s', code.foldlM (LinkState.link m f) s = .ok s' ∧ s'.regions.map Region.shape = rs.map Region.shape

theorem LinksTo.append {s : LinkState} {is js : List Instr} {rs rs' : List Region}
    (h : LinksTo m f s is rs)
    (h' : ∀ s' : LinkState, s'.regions.map Region.shape = rs.map Region.shape →
      LinksTo m f s' js rs') : LinksTo m f s (is ++ js) rs' := by
  obtain ⟨s₁, h₁, hs₁⟩ := h
  obtain ⟨s₂, h₂, hs₂⟩ := h' s₁ hs₁
  refine ⟨s₂, ?_, hs₂⟩
  rw [List.foldlM_append, h₁]
  exact h₂

theorem LinksTo.cons {s t : LinkState} {i : Instr} {is : List Instr} {rs : List Region}
    (hi : s.link m f i = .ok t) (h : LinksTo m f t is rs) : LinksTo m f s (i :: is) rs := by
  obtain ⟨s₂, h₂, hs₂⟩ := h
  refine ⟨s₂, ?_, hs₂⟩
  rw [List.foldlM_cons, hi]
  exact h₂

/-- The end of a region closes it. -/
theorem linksTo_end {s : LinkState} {r : Region} {rs : List Region}
    (h : s.regions.map Region.shape = (r :: rs).map Region.shape) :
    LinksTo m f s [.endRegion] rs := by
  cases hs : s.regions with
  | nil =>
    rw [hs] at h
    cases h
  | cons r' rest =>
    rw [hs] at h
    refine .cons (t := ⟨patch s.code.size r'.waiting s.code, rest⟩) ?_
      ⟨_, rfl, (List.cons.inj h).2⟩
    simp only [LinkState.link, hs]
    rfl

mutual

theorem Item.linksTo (t : Item) {s : LinkState} (h : t.Fits m f (regionLabels s.regions)) :
    LinksTo m f s t.code s.regions := by
  cases t with
  | plain i =>
    obtain ⟨s', hs'⟩ := link_of_admits h
    exact .cons hs' ⟨s', rfl, (admits_of_link h.isPlain hs').2⟩
  | block l body =>
    refine .cons (t := s.enter (.block l [])) rfl ?_
    exact .append (items_linksTo body h) fun s' hs' => linksTo_end hs'
  | loop l body =>
    refine .cons (t := s.enter (.loop l s.code.size)) rfl ?_
    exact .append (items_linksTo body h) fun s' hs' => linksTo_end hs'
  | cond first others =>
    refine .cons (t := (s.enter (.cond [s.code.size])).push (.jumpUnless 0)) rfl ?_
    refine .append (items_linksTo first h.1) fun s₁ hs₁ => ?_
    refine .append (others_linkTo others ?_ hs₁) fun s₂ hs₂ => linksTo_end hs₂
    exact h.2

theorem items_linksTo (ts : List Item) {s : LinkState}
    (h : ItemsFit m f (regionLabels s.regions) ts) :
    LinksTo m f s (itemsCode ts) s.regions := by
  cases ts with
  | nil => exact ⟨s, rfl, rfl⟩
  | cons t ts =>
    refine .append (Item.linksTo t h.1) fun s' hs' => ?_
    obtain ⟨s₂, h₂, hs₂⟩ := items_linksTo ts (s := s') (regionLabels_eq hs' ▸ h.2)
    exact ⟨s₂, h₂, hs₂.trans hs'⟩

theorem others_linkTo (ps : List (List Item)) {s : LinkState} {w : List Nat} {rs : List Region}
    (h : PartsFit m f (regionLabels rs) ps)
    (hs : s.regions.map Region.shape = (.cond w :: rs : List Region).map Region.shape) :
    LinksTo m f s (othersCode ps) (.cond w :: rs) := by
  cases ps with
  | nil => exact ⟨s, rfl, hs⟩
  | cons p ps =>
    obtain ⟨w', rest, hregions, hrest⟩ := exists_cond_of_shape hs
    refine .cons (t := ⟨patch (s.code.size + 1) w' (s.code.push (.jump 0)),
      .cond [s.code.size] :: rest⟩) ?_ ?_
    · simp only [LinkState.link, hregions]
      rfl
    · refine .append (items_linksTo p (regionLabels_eq hrest ▸ h.1)) fun s' hs' => ?_
      exact others_linkTo ps h.2 (hs'.trans (congrArg (Region.cond [] :: ·) hrest))

end

/-! ### What links is a tree -/

/-- Code that leaves some regions open: what stands in each of them so far is right in its names and
branches. -/
inductive Opens (m : Module) (f : Func) : List Region → List Instr → Prop where
  | body {items : List Item} (hi : ItemsFit m f [] items) : Opens m f [] (itemsCode items)
  | block {rs : List Region} {is : List Instr} {l : String} {items : List Item} (w : List Nat)
      (h : Opens m f rs is) (hi : ItemsFit m f (l :: regionLabels rs) items) :
      Opens m f (.block l w :: rs) (is ++ .block l :: itemsCode items)
  | loop {rs : List Region} {is : List Instr} {l : String} {items : List Item} (start : Nat)
      (h : Opens m f rs is) (hi : ItemsFit m f (l :: regionLabels rs) items) :
      Opens m f (.loop l start :: rs) (is ++ .loop l :: itemsCode items)
  | first {rs : List Region} {is : List Instr} {items : List Item} (w : List Nat)
      (h : Opens m f rs is) (hi : ItemsFit m f (regionLabels rs) items) :
      Opens m f (.cond w :: rs) (is ++ .ifNonzero :: itemsCode items)
  | other {rs : List Region} {is : List Instr} {first items : List Item}
      {others : List (List Item)} (w : List Nat) (h : Opens m f rs is)
      (hf : ItemsFit m f (regionLabels rs) first) (ho : PartsFit m f (regionLabels rs) others)
      (hi : ItemsFit m f (regionLabels rs) items) :
      Opens m f (.cond w :: rs)
        (is ++ .ifNonzero :: itemsCode first ++ othersCode others ++ .orElse :: itemsCode items)

/-- Only kinds and labels of the open regions matter. -/
theorem Opens.congr {rs rs' : List Region} {is : List Instr} (h : Opens m f rs is)
    (hrs : rs'.map Region.shape = rs.map Region.shape) : Opens m f rs' is := by
  induction h generalizing rs' with
  | body hi =>
    cases rs' with
    | nil => exact .body hi
    | cons r rest => cases hrs
  | block w h hi ih =>
    cases rs' with
    | nil => cases hrs
    | cons r rest =>
      obtain ⟨hr, hrest⟩ := List.cons.inj hrs
      cases r with
      | block l' w' =>
        cases hr
        exact .block w' (ih hrest) (regionLabels_eq hrest ▸ hi)
      | loop l' start => cases hr
      | cond w' => cases hr
  | loop start h hi ih =>
    cases rs' with
    | nil => cases hrs
    | cons r rest =>
      obtain ⟨hr, hrest⟩ := List.cons.inj hrs
      cases r with
      | block l' w' => cases hr
      | loop l' start' =>
        cases hr
        exact .loop start (ih hrest) (regionLabels_eq hrest ▸ hi)
      | cond w' => cases hr
  | first w h hi ih =>
    obtain ⟨w', rest, rfl, hrest⟩ := exists_cond_of_shape hrs
    exact .first w' (ih hrest) (regionLabels_eq hrest ▸ hi)
  | other w h hf ho hi ih =>
    obtain ⟨w', rest, rfl, hrest⟩ := exists_cond_of_shape hrs
    rw [← regionLabels_eq hrest] at hf ho hi
    exact .other w' (ih hrest) hf ho hi

/-- A further item in the innermost open region. -/
theorem Opens.add {rs : List Region} {is : List Instr} (h : Opens m f rs is) {t : Item}
    (ht : t.Fits m f (regionLabels rs)) : Opens m f rs (is ++ t.code) := by
  have hone : itemsCode [t] = t.code := by simp [itemsCode]
  rw [← hone]
  cases h with
  | body hi =>
    rw [← itemsCode_append]
    exact .body (itemsFit_append.2 ⟨hi, ht, trivial⟩)
  | block w h hi =>
    rw [List.append_assoc, List.cons_append, ← itemsCode_append]
    exact .block w h (itemsFit_append.2 ⟨hi, ht, trivial⟩)
  | loop start h hi =>
    rw [List.append_assoc, List.cons_append, ← itemsCode_append]
    exact .loop start h (itemsFit_append.2 ⟨hi, ht, trivial⟩)
  | first w h hi =>
    rw [List.append_assoc, List.cons_append, ← itemsCode_append]
    exact .first w h (itemsFit_append.2 ⟨hi, ht, trivial⟩)
  | other w h hf ho hi =>
    rw [List.append_assoc _ (Instr.orElse :: _), List.cons_append, ← itemsCode_append]
    exact .other w h hf ho (itemsFit_append.2 ⟨hi, ht, trivial⟩)

/-- The end of the innermost open region makes it an item of the region around it. -/
theorem Opens.close {r : Region} {rs : List Region} {is : List Instr}
    (h : Opens m f (r :: rs) is) : Opens m f rs (is ++ [.endRegion]) := by
  cases h with
  | @block _ is l items w h hi =>
    have hadd := h.add (t := .block l items) hi
    rwa [Item.code, ← List.append_assoc] at hadd
  | @loop _ is l items start h hi =>
    have hadd := h.add (t := .loop l items) hi
    rwa [Item.code, ← List.append_assoc] at hadd
  | @first _ is items w h hi =>
    have hadd := h.add (t := .cond items []) ⟨hi, trivial⟩
    rwa [Item.code, othersCode, List.nil_append, ← List.append_assoc] at hadd
  | @other _ is first items others w h hf ho hi =>
    have hadd := h.add (t := .cond first (others ++ [items]))
      ⟨hf, partsFit_append.2 ⟨ho, hi, trivial⟩⟩
    rw [Item.code, othersCode_append] at hadd
    simpa [othersCode] using hadd

/-- The start of the next part of the innermost open region. -/
theorem Opens.orElse {w w' : List Nat} {rs : List Region} {is : List Instr}
    (h : Opens m f (.cond w :: rs) is) : Opens m f (.cond w' :: rs) (is ++ [.orElse]) := by
  cases h with
  | @first _ is items _ h hi =>
    have hnext := Opens.other w' h hi (show PartsFit m f _ [] from trivial)
      (show ItemsFit m f _ [] from trivial)
    simpa [othersCode, itemsCode] using hnext
  | @other _ is first items others _ h hf ho hi =>
    have hparts : PartsFit m f (regionLabels rs) (others ++ [items]) :=
      partsFit_append.2 ⟨ho, hi, trivial⟩
    have hnext := Opens.other w' h hf hparts (show ItemsFit m f _ [] from trivial)
    simpa [othersCode, othersCode_append, itemsCode] using hnext

/-- Linking an instruction takes the open regions along. -/
theorem Opens.link {s s' : LinkState} {is : List Instr} {i : Instr}
    (h : Opens m f s.regions is) (hi : s.link m f i = .ok s') :
    Opens m f s'.regions (is ++ [i]) := by
  by_cases hplain : i.IsPlain
  · obtain ⟨hadmits, hshape⟩ := admits_of_link hplain hi
    exact (h.add (t := .plain i) hadmits).congr hshape
  · have hnil : ∀ {ls}, ItemsFit m f ls [] := trivial
    cases i with
    | block l =>
      cases hi
      exact .block [] h hnil
    | loop l =>
      cases hi
      exact .loop s.code.size h hnil
    | ifNonzero =>
      cases hi
      exact .first [s.code.size] h hnil
    | orElse =>
      simp only [LinkState.link] at hi
      split at hi
      · next w rest hregions =>
        cases hi
        rw [hregions] at h
        exact h.orElse
      · cases hi
    | endRegion =>
      simp only [LinkState.link] at hi
      split at hi
      · next r rest hregions =>
        cases hi
        rw [hregions] at h
        exact h.close
      · cases hi
    | _ => exact (hplain trivial).elim

theorem Opens.linkAll {s s' : LinkState} {is js : List Instr} (h : Opens m f s.regions is)
    (hj : js.foldlM (LinkState.link m f) s = .ok s') : Opens m f s'.regions (is ++ js) := by
  induction js generalizing s is with
  | nil =>
    cases hj
    rwa [List.append_nil]
  | cons j js ih =>
    simp only [List.foldlM_cons, except_bind_eq_ok] at hj
    obtain ⟨s₁, hj, hjs⟩ := hj
    have hall := ih (h.link hj) hjs
    rwa [List.append_assoc] at hall

/-! ### Functions and modules -/

/-- A function links exactly if its body is the listing of a tree with known names. -/
theorem Func.link_isOk :
    (∃ lf, f.link m = .ok lf) ↔ ∃ items, itemsCode items = f.body ∧ ItemsFit m f [] items := by
  constructor
  · rintro ⟨lf, hlf⟩
    obtain ⟨s, hs, hregions, -⟩ := Func.link_eq_ok hlf
    have hopens := Opens.linkAll (s := {}) (Opens.body (show ItemsFit m f [] [] from trivial)) hs
    rw [hregions, itemsCode, List.nil_append] at hopens
    generalize f.body = is at hopens
    cases hopens with
    | body hi => exact ⟨_, rfl, hi⟩
  · rintro ⟨items, hbody, hfits⟩
    obtain ⟨s, hs, hregions⟩ := items_linksTo items (s := {}) hfits
    have hnil : s.regions = [] := List.map_eq_nil_iff.1 hregions
    refine ⟨⟨f.name, f.params.length, (f.params ++ f.locals).eraseDups.length, s.code⟩, ?_⟩
    simp only [Func.link, ← hbody, hs, bind, Except.bind, hnil]
    rfl

theorem Import.link_isOk {i : Import} : (∃ h, i.link = .ok h) ↔ i.Known := by
  unfold Import.link Import.Known
  cases HostFunction.ofField? i.field with
  | none => simp
  | some h =>
    by_cases hsig : h.params = i.params ∧ h.hasResult = i.hasResult
    · simp [hsig]
    · simp [hsig]

/-- A module links exactly if it is closed. -/
theorem Module.link_isOk : (∃ L, m.link = .ok L) ↔ m.Closed := by
  constructor
  · rintro ⟨L, hL⟩
    have hlinks := Module.link_eq_ok hL
    refine ⟨fun i hi => ?_, fun f hf => ?_, fun x hx => ?_, ?_⟩
    · obtain ⟨h, -, hlink⟩ := exists_of_forall₂ hlinks.imports hi
      exact Import.link_isOk.1 ⟨h, hlink⟩
    · obtain ⟨lf, -, hlink⟩ := exists_of_forall₂ hlinks.functions hf
      exact Func.link_isOk.1 ⟨lf, hlink⟩
    · obtain ⟨k, -, hk⟩ := exists_of_forall₂ hlinks.table hx
      exact Module.functionIndex_isOk.1 ⟨k, hk⟩
    · exact Module.functionIndex_isOk.1 ⟨_, hlinks.entry⟩
  · intro h
    obtain ⟨imports, himports, -⟩ := mapM_ok fun i hi => Import.link_isOk.2 (h.imports i hi)
    obtain ⟨functions, hfunctions, -⟩ := mapM_ok fun f hf => Func.link_isOk.2 (h.bodies f hf)
    obtain ⟨table, htable, -⟩ := mapM_ok fun x hx => Module.functionIndex_isOk.2 (h.table x hx)
    obtain ⟨entry, hentry⟩ := Module.functionIndex_isOk.2 h.entry
    exact ⟨_, by simp only [Module.link, himports, hfunctions, htable, hentry]; rfl⟩

/-- A module is well formed exactly if it is closed and no conditional region has more than one
`orElse`. -/
theorem Module.wellFormed_iff : m.WellFormed ↔ m.Closed ∧ ∀ f ∈ m.functions, f.Binary := by
  constructor
  · intro h
    refine ⟨⟨h.imports, fun f hf => ?_, h.table, h.entry⟩, fun f hf => ?_⟩
    · obtain ⟨items, hcode, hfits, -⟩ := h.bodies f hf
      exact ⟨items, hcode, hfits⟩
    · obtain ⟨items, hcode, -, hbinary⟩ := h.bodies f hf
      exact ⟨items, hcode, hbinary⟩
  · rintro ⟨h, hbinary⟩
    refine ⟨h.imports, fun f hf => ?_, h.table, h.entry⟩
    obtain ⟨items, hcode, hfits⟩ := h.bodies f hf
    obtain ⟨items', hcode', hbinary⟩ := hbinary f hf
    obtain rfl := eq_of_itemsCode hfits hbinary (hcode.trans hcode'.symm)
    exact ⟨items, hcode, hfits, hbinary⟩

/-- The linker accepts exactly the modules whose regions are closed and whose names are known.  So it
accepts every well-formed module, and of the others those in which all that is wrong are further
`orElse` in conditional regions that have one. -/
theorem Module.links_iff (m : Module) : ((∃ L, m.link = .ok L) ↔ m.Closed) ∧
    (m.WellFormed ↔ (∃ L, m.link = .ok L) ∧ ∀ f ∈ m.functions, f.Binary) := by
  rw [Module.link_isOk]
  exact ⟨Iff.rfl, Module.wellFormed_iff⟩

/-- A body with a conditional region of three parts. -/
def threeParts : List Item :=
  [.plain (.const 1),
    .cond [.plain (.const 5), .plain (.localSet "a")]
      [[.plain (.const 6), .plain (.localSet "a")], [.plain (.const 7), .plain (.localSet "a")]],
    .plain (.localGet "a")]

/-- A module with a conditional region that has two `orElse`. -/
def Module.elseTwice : Module where
  imports := []
  memory := ⟨"js", "memory", 1⟩
  types := []
  globals := []
  table := []
  functions := [⟨"f", [], ["a"],
    [.const 1, .ifNonzero, .const 5, .localSet "a", .orElse, .const 6, .localSet "a",
      .orElse, .const 7, .localSet "a", .endRegion, .localGet "a"]⟩]
  entry := ⟨"e", "f", true⟩

/-- Not only well-formed modules link. -/
theorem Module.not_links_wellFormed : ¬ ∀ m : Module, (∃ L, m.link = .ok L) ↔ m.WellFormed := by
  intro h
  have hwell : elseTwice.WellFormed := (h elseTwice).1 ⟨_, rfl⟩
  obtain ⟨items, hcode, hbinary⟩ := (Module.wellFormed_iff.1 hwell).2 _ List.mem_cons_self
  have hfits : ItemsFit elseTwice ⟨"f", [], ["a"], []⟩ [] threeParts := by
    simp [threeParts, ItemsFit, Item.Fits, PartsFit, Func.Admits]
  obtain rfl : threeParts = items := eq_of_itemsCode hfits hbinary hcode.symm
  exact absurd hbinary.2.1.1 (by decide)

end Code

end ObjLang
