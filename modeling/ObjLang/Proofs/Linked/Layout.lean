import ObjLang.Proofs.Emit.State
import ObjLang.Proofs.Linked.Accepts

/-!
# ObjLang.Proofs.Linked.Layout — where the items of a body lie

`ItemsAt` says that items fill a stretch of linked code, every jump leading to where the tree says.
A jump out of a region is written down before its target is known, so the final code is read off
backwards: a state of the linker, together with the positions at which its open regions will end,
leads to the same code as the state before it.
-/

namespace ObjLang

open Code (Func Instr Item Module itemsCode othersCode ItemsFit PartsFit)

/-! ### Items in linked code -/

/-- The resolved form of an instruction, where the labels around it lead to some targets. -/
def Names.resolve (N : Names) (targets : List (String × Nat)) : Instr → Option Op
  | .br l => (targets.lookup l).map .jump
  | .brIf l => (targets.lookup l).map .jumpIf
  | i => some (N.op i)

section

variable (N : Names) (arr : Array Op)

mutual

/-- An item lies between two positions; the labels around it lead to some targets. -/
def ItemAt (targets : List (String × Nat)) : Item → (a a' : Nat) → Prop
  | .plain i, a, a' => (∃ op, N.resolve targets i = some op ∧ arr[a]? = some op) ∧ a' = a + 1
  | .block l body, a, a' => ItemsAt ((l, a') :: targets) body a a'
  | .loop l body, a, a' => ItemsAt ((l, a) :: targets) body a a'
  | .cond first others, a, a' => ∃ b skip, arr[a]? = some (.jumpUnless skip) ∧
    ItemsAt targets first (a + 1) b ∧ PartsAt targets others b a' skip

/-- Items lie one behind the other. -/
def ItemsAt (targets : List (String × Nat)) : List Item → (a a' : Nat) → Prop
  | [], a, a' => a' = a
  | t :: ts, a, a' => ∃ b, ItemAt targets t a b ∧ ItemsAt targets ts b a'

/-- The further parts of a conditional region lie behind the end of a part.  Where that part is
skipped, running goes on at `skip`; where it runs, a jump at its end skips the next one. -/
def PartsAt (targets : List (String × Nat)) : List (List Item) → (a a' skip : Nat) → Prop
  | [], a, a', skip => a' = a ∧ skip = a
  | p :: ps, a, a', skip => skip = a + 1 ∧ ∃ b skip', arr[a]? = some (.jump skip') ∧
    ItemsAt targets p (a + 1) b ∧ PartsAt targets ps b a' skip'

end

end

/-! ### Code whose open regions have ends -/

theorem size_patch (e : Nat) (w : List Nat) (code : Array Op) :
    (patch e w code).size = code.size := by
  induction w generalizing code with
  | nil => rfl
  | cons i w ih => exact (ih _).trans Array.size_modify

/-- Jumps get their targets before or after a further instruction. -/
theorem patch_push {e : Nat} {w : List Nat} {code : Array Op} (h : ∀ i ∈ w, i < code.size)
    (op : Op) : patch e w (code.push op) = (patch e w code).push op := by
  induction w generalizing code with
  | nil => rfl
  | cons i w ih =>
    have hlt : i < code.size := h i List.mem_cons_self
    have hmodify : (code.push op).modify i (Op.withTarget e)
        = (code.modify i (Op.withTarget e)).push op := by
      ext j hj hj'
      · simp
      · simp only [Array.getElem_modify, Array.getElem_push, Array.size_modify]
        grind
    have hrest : ∀ j ∈ w, j < (code.modify i (Op.withTarget e)).size := fun j hj =>
      Array.size_modify.symm ▸ h j (List.mem_cons_of_mem _ hj)
    rw [patch, List.foldl_cons, hmodify]
    exact ih hrest

/-- A jump at the end of the code gets its target, and no other instruction changes. -/
theorem patch_last {jump : Nat → Op} (hjump : ∀ t u, (jump t).withTarget u = jump u)
    (e t : Nat) (code : Array Op) : patch e [code.size] (code.push (jump t))
      = code.push (jump e) := by
  ext j hj hj'
  · simp [patch]
  · simp only [patch, List.foldl_cons, List.foldl_nil, Array.getElem_modify, Array.getElem_push]
    grind

/-- The jumps of some regions that wait stand before a position. -/
def WaitBefore (n : Nat) (rs : List Region) : Prop := ∀ r ∈ rs, ∀ i ∈ r.waiting, i < n

theorem waitBefore_cons {n : Nat} {r : Region} {rs : List Region} :
    WaitBefore n (r :: rs) ↔ (∀ i ∈ r.waiting, i < n) ∧ WaitBefore n rs :=
  List.forall_mem_cons

theorem WaitBefore.mono {n n' : Nat} {rs : List Region} (h : WaitBefore n rs) (hn : n ≤ n') :
    WaitBefore n' rs :=
  fun r hr i hi => Nat.lt_of_lt_of_le (h r hr i hi) hn

theorem WaitBefore.patch {code : Array Op} {rs : List Region} (h : WaitBefore code.size rs) (e : Nat)
    (w : List Nat) : WaitBefore (ObjLang.patch e w code).size rs := by
  rwa [size_patch]

/-- The jumps that wait get their targets, if the open regions end at some positions. -/
def complete : List Region → (ends : List Nat) → Array Op → Array Op
  | [], _, code => code
  | r :: rs, ends, code => complete rs ends.tail (patch (ends.headD 0) r.waiting code)

/-- Where the labels of open regions lead, if these end at some positions. -/
def targets : List Region → (ends : List Nat) → List (String × Nat)
  | [], _ => []
  | .block l _ :: rs, ends => (l, ends.headD 0) :: targets rs ends.tail
  | .loop l start :: rs, ends => (l, start) :: targets rs ends.tail
  | .cond _ :: rs, ends => targets rs ends.tail

theorem size_complete (rs : List Region) (ends : List Nat) (code : Array Op) :
    (complete rs ends code).size = code.size := by
  induction rs generalizing ends code with
  | nil => rfl
  | cons r rs ih => exact (ih _ _).trans (size_patch _ _ _)

theorem complete_push {rs : List Region} {code : Array Op} (h : WaitBefore code.size rs)
    (ends : List Nat) (op : Op) :
    complete rs ends (code.push op) = (complete rs ends code).push op := by
  induction rs generalizing code ends with
  | nil => rfl
  | cons r rs ih =>
    obtain ⟨hr, hrs⟩ := waitBefore_cons.1 h
    rw [complete, patch_push hr]
    exact ih (hrs.patch _ _) _

theorem targets_shape {rs rs' : List Region} (h : rs'.map Region.shape = rs.map Region.shape)
    (ends : List Nat) : targets rs' ends = targets rs ends := by
  have hshape : ∀ (rs : List Region) ends, targets (rs.map Region.shape) ends = targets rs ends := by
    intro rs
    induction rs with
    | nil => exact fun _ => rfl
    | cons r rs ih => cases r <;> simp [targets, Region.shape, ih]
  rw [← hshape rs', h, hshape]

theorem waitBefore_branch {l : String} {rs rs' : List Region} {i t : Nat}
    (hb : branch l i rs = some (t, rs')) (h : WaitBefore i rs) : WaitBefore (i + 1) rs' := by
  induction rs generalizing rs' t with
  | nil => cases hb
  | cons r rs ih =>
    obtain ⟨hr, hrs⟩ := waitBefore_cons.1 h
    unfold branch at hb
    split at hb
    · cases r with
      | block l' w =>
        cases hb
        refine waitBefore_cons.2 ⟨fun j hj => ?_, hrs.mono (Nat.le_succ i)⟩
        obtain rfl | hj := List.mem_cons.1 hj
        · exact Nat.lt_succ_self j
        · exact Nat.lt_succ_of_lt (hr j hj)
      | loop l' start =>
        cases hb
        exact h.mono (Nat.le_succ i)
      | cond w => cases hb
    · obtain ⟨⟨t', rest⟩, hrest, heq⟩ := Option.map_eq_some_iff.1 hb
      cases heq
      exact waitBefore_cons.2 ⟨fun j hj => Nat.lt_succ_of_lt (hr j hj), ih hrest hrs⟩

/-- A jump to a label gets the target to which the label leads. -/
theorem complete_branch {jump : Nat → Op} (hjump : ∀ t u, (jump t).withTarget u = jump u)
    {l : String} {rs rs' : List Region} {code : Array Op} {t : Nat}
    (hb : branch l code.size rs = some (t, rs')) (h : WaitBefore code.size rs) (ends : List Nat) :
    ∃ u, (targets rs ends).lookup l = some u ∧
      complete rs' ends (code.push (jump t)) = (complete rs ends code).push (jump u) := by
  induction rs generalizing rs' code ends with
  | nil => cases hb
  | cons r rs ih =>
    obtain ⟨hr, hrs⟩ := waitBefore_cons.1 h
    have hrs' := hrs.patch (ends.headD 0) r.waiting
    unfold branch at hb
    split at hb
    · next hl =>
      cases r with
      | block l' w =>
        cases hb
        cases hl
        refine ⟨ends.headD 0, by simp [targets], ?_⟩
        have hcons : patch (ends.headD 0) (code.size :: w) (code.push (jump 0))
            = patch (ends.headD 0) w (patch (ends.headD 0) [code.size] (code.push (jump 0))) := rfl
        rw [complete, complete, Region.waiting, hcons, patch_last hjump, patch_push (w := w) hr]
        exact complete_push hrs' _ _
      | loop l' start =>
        cases hb
        cases hl
        exact ⟨_, by simp [targets], complete_push h ends _⟩
      | cond w => cases hb
    · next hl =>
      obtain ⟨⟨t', rest⟩, hrest, heq⟩ := Option.map_eq_some_iff.1 hb
      cases heq
      rw [← size_patch (ends.headD 0) r.waiting code] at hrest
      obtain ⟨u, hu, hcode⟩ := ih hrest hrs' ends.tail
      refine ⟨u, ?_, ?_⟩
      · cases r with
        | block l' w | loop l' start =>
          have hne : (l == l') = false := beq_eq_false_iff_ne.2 fun h => hl (congrArg some h.symm)
          simpa only [targets, List.lookup_cons, hne] using hu
        | cond w => exact hu
      · rw [complete, patch_push hr]
        exact hcode

/-! ### Linking read backwards -/

namespace LinkState

/-- No jump waits that has not been written. -/
def Bounded (s : LinkState) : Prop := WaitBefore s.code.size s.regions

/-- The code so far is the start of the final code, if the open regions end at some positions. -/
def Leads (s : LinkState) (ends : List Nat) (arr : Array Op) : Prop :=
  ∀ (i : Nat) (op : Op), (complete s.regions ends s.code)[i]? = some op → arr[i]? = some op

theorem Leads.of_push {s s' : LinkState} {ends ends' : List Nat} {arr : Array Op} {op : Op}
    (h : s'.Leads ends' arr)
    (heq : complete s'.regions ends' s'.code = (complete s.regions ends s.code).push op) :
    s.Leads ends arr ∧ arr[s.code.size]? = some op := by
  have hsize := size_complete s.regions ends s.code
  refine ⟨fun i op' hi => h i op' ?_, h _ _ ?_⟩
  · have hlt := (Array.getElem?_eq_some_iff.1 hi).1
    rwa [heq, Array.getElem?_push_lt hlt, ← Array.getElem?_eq_getElem hlt]
  · rw [heq, ← hsize, Array.getElem?_push_size]

/-- Linking some code comes from one state to another; the final code has a property that depends on
the ends of the open regions. -/
structure Lays (s s' : LinkState) (P : (ends : List Nat) → Array Op → Prop) : Prop where
  bounded : s'.Bounded
  shape : s'.regions.map Region.shape = s.regions.map Region.shape
  leads : ∀ ends arr, s'.Leads ends arr → s.Leads ends arr ∧ P ends arr

end LinkState

open LinkState

variable {m : Module} {f : Func} {s s' : LinkState} {ls : List String}

/-- The linker adds an instruction in resolved form. -/
structure LaysOp (m : Module) (f : Func) (s s' : LinkState) (i : Instr) : Prop where
  size : s'.code.size = s.code.size + 1
  lays : Lays s s' fun ends arr => ∃ op,
    (m.names f).resolve (targets s.regions ends) i = some op ∧ arr[s.code.size]? = some op

theorem laysOp_push {i : Instr} (hs : s.Bounded)
    (hresolve : ∀ targets, (m.names f).resolve targets i = some ((m.names f).op i)) :
    LaysOp m f s (s.push ((m.names f).op i)) i := by
  have hsize : (s.push ((m.names f).op i)).code.size = s.code.size + 1 := Array.size_push _
  refine ⟨hsize, hs.mono (hsize ▸ Nat.le_succ _), rfl, fun ends arr h => ?_⟩
  obtain ⟨hleads, hop⟩ := h.of_push (complete_push hs ends _)
  exact ⟨hleads, _, hresolve _, hop⟩

theorem laysOp_jump {i : Instr} {l : String} {jump : Nat → Op}
    (hjump : ∀ t u, (jump t).withTarget u = jump u)
    (hresolve : ∀ targets, (m.names f).resolve targets i = (targets.lookup l).map jump)
    (hs : s.Bounded) (h : s.jumpTo f l jump = .ok s') : LaysOp m f s s' i := by
  unfold LinkState.jumpTo at h
  split at h
  · next t rs hb =>
    cases h
    refine ⟨Array.size_push _, ?_, branch_shape hb, fun ends arr h => ?_⟩
    · have hbefore := waitBefore_branch hb hs
      rwa [← Array.size_push (jump t)] at hbefore
    · obtain ⟨u, hu, hcode⟩ := complete_branch hjump hb hs ends
      obtain ⟨hleads, hop⟩ := h.of_push hcode
      exact ⟨hleads, _, by rw [hresolve, hu]; rfl, hop⟩
  · cases h

theorem resolves_of_admits {i : Instr} (h : f.Admits m ls i) :
    Emit.Resolves m f i ∨ i = .unreachable ∨ ∃ l, i = .br l ∨ i = .brIf l := by
  cases i with
  | block l | loop l | ifNonzero | orElse | endRegion => exact h.elim
  | unreachable => exact .inr (.inl rfl)
  | br l => exact .inr (.inr ⟨l, .inl rfl⟩)
  | brIf l => exact .inr (.inr ⟨l, .inr rfl⟩)
  | callIndirect t => exact .inl (Code.Module.type?_isSome_iff.2 h)
  | localGet x | localSet x | globalGet x | globalSet x | call g => exact .inl h
  | const n | load o | store o | binary op | eqz | drop | ret => exact .inl trivial

theorem instr_lays {i : Instr} (hfits : f.Admits m ls i) (hs : s.Bounded)
    (h : s.link m f i = .ok s') : LaysOp m f s s' i := by
  obtain hres | rfl | ⟨l, rfl | rfl⟩ := resolves_of_admits hfits
  · rw [Emit.link_of_resolves hres] at h
    cases h
    refine laysOp_push hs fun targets => ?_
    cases i with
    | br l | brIf l => exact hres.elim
    | _ => rfl
  · cases h
    exact laysOp_push (i := .unreachable) hs fun _ => rfl
  · exact laysOp_jump (fun _ _ => rfl) (fun _ => rfl) hs h
  · exact laysOp_jump (fun _ _ => rfl) (fun _ => rfl) hs h

theorem bounded_enter {r : Region} (hs : s.Bounded) (hr : r.waiting = []) :
    (s.enter r).Bounded :=
  waitBefore_cons.2 ⟨fun _ hi => absurd (hr ▸ hi) List.not_mem_nil, hs⟩

/-- The start of a conditional region. -/
theorem leads_cond (hs : s.Bounded) (h : s.link m f .ifNonzero = .ok s') :
    s'.Bounded ∧ s'.regions = .cond [s.code.size] :: s.regions ∧
      s'.code.size = s.code.size + 1 ∧ ∀ e ends arr, s'.Leads (e :: ends) arr →
        s.Leads ends arr ∧ arr[s.code.size]? = some (.jumpUnless e) := by
  cases h
  have hsize : (s.code.push (.jumpUnless 0)).size = s.code.size + 1 := Array.size_push _
  refine ⟨?_, rfl, hsize, fun e ends arr h => h.of_push ?_⟩
  · refine waitBefore_cons.2 ⟨fun i hi => ?_, hs.mono (hsize ▸ Nat.le_succ _)⟩
    exact hsize ▸ List.mem_singleton.1 hi ▸ Nat.lt_succ_self _
  · have hjump : ∀ t u, (Op.jumpUnless t).withTarget u = .jumpUnless u := fun _ _ => rfl
    have hlast := patch_last hjump e 0 s.code
    rw [← complete_push hs, ← hlast]
    rfl

/-- The end of a region is the position to which its jumps lead. -/
theorem leads_end {r : Region} {rs : List Region} (hs : s.Bounded) (hregions : s.regions = r :: rs)
    (h : s.link m f .endRegion = .ok s') : s'.Bounded ∧ s'.regions = rs ∧
      s'.code.size = s.code.size ∧
      ∀ ends arr, s'.Leads ends arr → s.Leads (s.code.size :: ends) arr := by
  have hbefore : WaitBefore s.code.size (r :: rs) := hregions ▸ hs
  simp only [LinkState.link, hregions] at h
  cases h
  refine ⟨(waitBefore_cons.1 hbefore).2.patch _ _, rfl, size_patch _ _ _, fun ends arr h => ?_⟩
  unfold LinkState.Leads
  rw [hregions]
  exact h

/-- A region whose body has been linked is closed. -/
theorem LinkState.Lays.close {r : Region} {s₁ : LinkState} {P : List Nat → Array Op → Prop}
    (hr : r.waiting = []) (hlays : Lays (s.enter r) s₁ P)
    (h : s₁.link m f .endRegion = .ok s') : s'.code.size = s₁.code.size ∧
      Lays s s' fun ends arr => P (s₁.code.size :: ends) arr := by
  obtain ⟨r₁, rs, hregions, -, hrest⟩ := List.map_eq_cons_iff.1 hlays.shape
  obtain ⟨hbounded, hregions', hsize, hleads⟩ := leads_end hlays.bounded hregions h
  refine ⟨hsize, hbounded, hregions' ▸ hrest, fun ends arr hl => ?_⟩
  obtain ⟨henter, hP⟩ := hlays.leads _ _ (hleads _ _ hl)
  refine ⟨?_, hP⟩
  unfold LinkState.Leads at henter
  rwa [LinkState.enter, complete, hr] at henter

/-- The start of a further part of a conditional region. -/
theorem leads_orElse {w : List Nat} {rs : List Region} (hs : s.Bounded)
    (hregions : s.regions = .cond w :: rs) (h : s.link m f .orElse = .ok s') :
    s'.Bounded ∧ s'.regions = .cond [s.code.size] :: rs ∧ s'.code.size = s.code.size + 1 ∧
      ∀ e ends arr, s'.Leads (e :: ends) arr →
        s.Leads ((s.code.size + 1) :: ends) arr ∧ arr[s.code.size]? = some (.jump e) := by
  obtain ⟨hw, hrs⟩ : (∀ i ∈ w, i < s.code.size) ∧ WaitBefore s.code.size rs :=
    waitBefore_cons.1 (hregions ▸ hs : WaitBefore s.code.size (.cond w :: rs))
  simp only [LinkState.link, hregions] at h
  cases h
  have hsize : (patch (s.code.size + 1) w (s.code.push (.jump 0))).size = s.code.size + 1 := by
    rw [size_patch, Array.size_push]
  refine ⟨?_, rfl, hsize, fun e ends arr h => h.of_push ?_⟩
  · unfold LinkState.Bounded
    rw [hsize, waitBefore_cons]
    refine ⟨fun i hi => ?_, hrs.mono (Nat.le_succ _)⟩
    exact List.mem_singleton.1 hi ▸ Nat.lt_succ_self _
  · have hjump : ∀ t u, (Op.jump t).withTarget u = .jump u := fun _ _ => rfl
    have hlast := patch_last hjump e 0 (patch (s.code.size + 1) w s.code)
    rw [size_patch] at hlast
    rw [hregions, complete, complete, patch_push hw]
    simp only [Region.waiting, List.headD_cons, List.tail_cons]
    rw [hlast]
    exact complete_push (hrs.patch _ _) _ _

mutual

theorem item_lays (t : Item) {ls : List String} {s s' : LinkState} (hfits : t.Fits m f ls)
    (hs : s.Bounded) (h : t.code.foldlM (LinkState.link m f) s = .ok s') :
    Lays s s' fun ends arr =>
      ItemAt (m.names f) arr (targets s.regions ends) t s.code.size s'.code.size := by
  cases t with
  | plain i =>
    simp only [Item.code, List.foldlM_cons, List.foldlM_nil, except_bind_eq_ok,
      except_pure_eq_ok] at h
    obtain ⟨s₁, h, rfl⟩ := h
    obtain ⟨hsize, hlays⟩ := instr_lays hfits hs h
    refine ⟨hlays.bounded, hlays.shape, fun ends arr hl => ?_⟩
    obtain ⟨hleads, hop⟩ := hlays.leads ends arr hl
    exact ⟨hleads, hop, hsize⟩
  | block l body | loop l body =>
    simp only [Item.code, List.cons_append, List.foldlM_cons, List.foldlM_append, List.foldlM_nil,
      except_bind_eq_ok, except_pure_eq_ok] at h
    obtain ⟨s₀, hopen, s₁, hbody, s₂, hend, rfl⟩ := h
    cases hopen
    have hbody := items_lay body hfits (bounded_enter hs rfl) hbody
    obtain ⟨hsize, hlays⟩ := hbody.close rfl hend
    rw [← hsize] at hlays
    exact hlays
  | cond first others =>
    simp only [Item.code, List.cons_append, List.foldlM_cons, List.foldlM_append, List.foldlM_nil,
      except_bind_eq_ok, except_pure_eq_ok] at h
    obtain ⟨s₀, hopen, s₁, hfirst, s₂, hothers, s₃, hend, rfl⟩ := h
    obtain ⟨hbounded₀, hregions₀, hsize₀, hleads₀⟩ := leads_cond hs hopen
    have hfirst := items_lay first hfits.1 hbounded₀ hfirst
    obtain ⟨w₁, rs₁, hregions₁, hrs₁⟩ := exists_cond_of_shape (hregions₀ ▸ hfirst.shape)
    obtain ⟨hbounded₂, ⟨w₂, rs₂, hregions₂, hrs₂⟩, hleads₂⟩ :=
      others_lay others hfits.2 hfirst.bounded hregions₁ hothers
    obtain ⟨hbounded₃, hregions₃, hsize₃, hleads₃⟩ := leads_end hbounded₂ hregions₂ hend
    refine ⟨hbounded₃, hregions₃ ▸ hrs₂.trans hrs₁, fun ends arr hl => ?_⟩
    obtain ⟨skip, hl₁, hparts⟩ := hleads₂ _ _ (hleads₃ _ _ hl)
    obtain ⟨hl₀, hitems⟩ := hfirst.leads _ _ hl₁
    obtain ⟨hl, hop⟩ := hleads₀ _ _ _ hl₀
    rw [hregions₀, hsize₀] at hitems
    rw [targets_shape hrs₁, ← hsize₃] at hparts
    exact ⟨hl, _, _, hop, hitems, hparts⟩

theorem items_lay (ts : List Item) {ls : List String} {s s' : LinkState}
    (hfits : ItemsFit m f ls ts) (hs : s.Bounded)
    (h : (itemsCode ts).foldlM (LinkState.link m f) s = .ok s') :
    Lays s s' fun ends arr =>
      ItemsAt (m.names f) arr (targets s.regions ends) ts s.code.size s'.code.size := by
  cases ts with
  | nil =>
    cases h
    exact ⟨hs, rfl, fun ends arr hl => ⟨hl, rfl⟩⟩
  | cons t ts =>
    simp only [itemsCode, List.foldlM_append, except_bind_eq_ok] at h
    obtain ⟨s₁, ht, hts⟩ := h
    have ht := item_lays t hfits.1 hs ht
    have hts := items_lay ts hfits.2 ht.bounded hts
    refine ⟨hts.bounded, hts.shape.trans ht.shape, fun ends arr hl => ?_⟩
    obtain ⟨hl₁, hrest⟩ := hts.leads ends arr hl
    obtain ⟨hl₀, hitem⟩ := ht.leads ends arr hl₁
    rw [targets_shape ht.shape] at hrest
    exact ⟨hl₀, _, hitem, hrest⟩

theorem others_lay (ps : List (List Item)) {ls : List String} {s s' : LinkState} {w : List Nat}
    {rs : List Region} (hfits : PartsFit m f ls ps) (hs : s.Bounded)
    (hregions : s.regions = .cond w :: rs)
    (h : (othersCode ps).foldlM (LinkState.link m f) s = .ok s') :
    s'.Bounded ∧
      (∃ w' rs', s'.regions = .cond w' :: rs' ∧ rs'.map Region.shape = rs.map Region.shape) ∧
      ∀ ends arr, s'.Leads (s'.code.size :: ends) arr → ∃ skip, s.Leads (skip :: ends) arr ∧
        PartsAt (m.names f) arr (targets rs ends) ps s.code.size s'.code.size skip := by
  cases ps with
  | nil =>
    cases h
    exact ⟨hs, ⟨w, rs, hregions, rfl⟩, fun ends arr hl => ⟨_, hl, rfl, rfl⟩⟩
  | cons p ps =>
    simp only [othersCode, List.cons_append, List.foldlM_cons, List.foldlM_append,
      except_bind_eq_ok] at h
    obtain ⟨s₀, hopen, s₁, hp, hps⟩ := h
    obtain ⟨hbounded₀, hregions₀, hsize₀, hleads₀⟩ := leads_orElse hs hregions hopen
    have hp := items_lay p hfits.1 hbounded₀ hp
    obtain ⟨w₁, rs₁, hregions₁, hrs₁⟩ := exists_cond_of_shape (hregions₀ ▸ hp.shape)
    obtain ⟨hbounded₂, ⟨w₂, rs₂, hregions₂, hrs₂⟩, hleads₂⟩ :=
      others_lay ps hfits.2 hp.bounded hregions₁ hps
    refine ⟨hbounded₂, ⟨w₂, rs₂, hregions₂, hrs₂.trans hrs₁⟩, fun ends arr hl => ?_⟩
    obtain ⟨skip, hl₁, hparts⟩ := hleads₂ _ _ hl
    obtain ⟨hl₀, hitems⟩ := hp.leads _ _ hl₁
    obtain ⟨hl, hop⟩ := hleads₀ _ _ _ hl₀
    rw [hregions₀, hsize₀] at hitems
    rw [targets_shape hrs₁] at hparts
    exact ⟨_, hl, rfl, _, _, hop, hitems, hparts⟩

end

/-- The linked code of a body is the layout of its tree. -/
theorem itemsAt_of_link {lf : LinkedFunction} {items : List Item} (h : f.link m = .ok lf)
    (hcode : itemsCode items = f.body) (hfits : ItemsFit m f [] items) :
    ItemsAt (m.names f) lf.code [] items 0 lf.code.size := by
  obtain ⟨s, hs, hregions, rfl⟩ := Code.Func.link_eq_ok h
  have hlays := items_lay (s := {}) items hfits nofun (hcode ▸ hs)
  refine (hlays.leads [] s.code ?_).2
  unfold LinkState.Leads
  rw [hregions]
  exact fun _ _ h => h

end ObjLang
