import ObjLang.Proofs.Code.Names
import ObjLang.Proofs.Runs

/-!
# ObjLang.Proofs.Linked.Variables — the variables that linked code names

Linking gives a local the place of the last occurrence of its name among parameters and locals, and a
function as many slots as it has different names.  The two fit together exactly if no name occurs
twice.
-/

namespace ObjLang

open Code (Instr)

/-! ### Lists of names -/

theorem lastIndex?_lt {x : String} {xs : List String} {i : Nat} (h : lastIndex? x xs = some i) :
    i < xs.length :=
  (List.getElem?_eq_some_iff.1 (getElem?_of_lastIndex? h)).1

theorem length_eraseDups_le (xs : List String) : xs.eraseDups.length ≤ xs.length := by
  induction hn : xs.length using Nat.strongRecOn generalizing xs with
  | _ n ih =>
    cases xs with
    | nil => simp
    | cons x xs =>
      subst hn
      have hfilter := List.length_filter_le (fun y => !y == x) xs
      have hrest := ih _ (by rw [List.length_cons]; omega) (xs.filter fun y => !y == x) rfl
      rw [List.eraseDups_cons, List.length_cons, List.length_cons]
      omega

/-- There are as many different names as names exactly if no name occurs twice. -/
theorem length_eraseDups_eq_iff {xs : List String} :
    xs.eraseDups.length = xs.length ↔ xs.Nodup := by
  constructor
  · intro h
    induction xs with
    | nil => exact List.nodup_nil
    | cons x xs ih =>
      have hfilter := List.length_filter_le (fun y => !y == x) xs
      have hrest := length_eraseDups_le (xs.filter fun y => !y == x)
      rw [List.eraseDups_cons, List.length_cons, List.length_cons] at h
      have hall : ∀ y ∈ xs, (!y == x) = true :=
        List.length_filter_eq_length_iff.1 (by omega)
      rw [List.filter_eq_self.2 hall] at h
      refine List.nodup_cons.2 ⟨fun hx => ?_, ih (by omega)⟩
      simpa using hall x hx
  · intro h
    rw [eraseDups_of_nodup h]

/-- All places of names lie below the number of different names exactly if no name occurs twice. -/
theorem lastIndex?_lt_eraseDups_iff {xs : List String} :
    (∀ x i, lastIndex? x xs = some i → i < xs.eraseDups.length) ↔ xs.Nodup := by
  constructor
  · intro h
    cases hlast : xs.getLast? with
    | none => simp_all
    | some x =>
      -- The last name of all stands in the last place.
      obtain ⟨ys, rfl⟩ := List.getLast?_eq_some_iff.1 hlast
      have hplace : lastIndex? x (ys ++ [x]) = some ys.length := by
        clear h hlast
        induction ys with
        | nil => simp [lastIndex?]
        | cons y ys ih => simp [lastIndex?, ih]
      have hlt := h x _ hplace
      have hle := length_eraseDups_le (ys ++ [x])
      rw [← length_eraseDups_eq_iff]
      rw [List.length_append, List.length_singleton] at hle ⊢
      omega
  · intro h x i hi
    rw [eraseDups_of_nodup h]
    exact lastIndex?_lt hi

/-! ### Linked functions -/

namespace Code

/-- Whether an instruction of linked code names a variable that one of some instructions named. -/
def Func.Writes (m : Module) (f : Func) (is : List Instr) : Op → Prop
  | .localGet k => ∃ x, .localGet x ∈ is ∧ f.slot x = .ok k
  | .localSet k => ∃ x, .localSet x ∈ is ∧ f.slot x = .ok k
  | .globalGet k => ∃ x, .globalGet x ∈ is ∧ m.globalIndex x = .ok k
  | .globalSet k => ∃ x, .globalSet x ∈ is ∧ m.globalIndex x = .ok k
  | _ => True

variable {m : Module} {f : Func} {is : List Instr} {s s' : LinkState} {lf : LinkedFunction}

theorem Func.Writes.withTarget {op : Op} (h : f.Writes m is op) (k : Nat) :
    f.Writes m is (op.withTarget k) := by
  cases op <;> exact h

theorem Func.Writes.patch {code : Array Op} (h : ∀ op ∈ code, f.Writes m is op) (k : Nat)
    (positions : List Nat) : ∀ op ∈ patch k positions code, f.Writes m is op := by
  induction positions generalizing code with
  | nil => exact h
  | cons i positions ih =>
    refine ih fun op hop => ?_
    obtain ⟨j, hj, rfl⟩ := Array.mem_iff_getElem.1 hop
    rw [Array.getElem_modify]
    split
    · exact (h _ (Array.getElem_mem _)).withTarget k
    · exact h _ (Array.getElem_mem _)

theorem Func.Writes.push {code : Array Op} {op : Op} (h : ∀ op ∈ code, f.Writes m is op)
    (hop : f.Writes m is op) : ∀ op' ∈ code.push op, f.Writes m is op' := by
  intro op' hop'
  obtain hop' | rfl := Array.mem_push.1 hop'
  · exact h op' hop'
  · exact hop

theorem Func.Writes.jumpTo {l : String} {jump : Nat → Op} (hs : ∀ op ∈ s.code, f.Writes m is op)
    (hjump : ∀ k, f.Writes m is (jump k)) (h : s.jumpTo f l jump = .ok s') :
    ∀ op ∈ s'.code, f.Writes m is op := by
  unfold LinkState.jumpTo at h
  split at h
  · cases h
    exact hs |> (Func.Writes.push · (hjump _))
  · cases h

/-- Linking an instruction names only the variables that the instruction names. -/
theorem Func.Writes.link {i : Instr} (hs : ∀ op ∈ s.code, f.Writes m is op) (hi : i ∈ is)
    (h : s.link m f i = .ok s') : ∀ op ∈ s'.code, f.Writes m is op := by
  cases i with
  | localGet x | localSet x | globalGet x | globalSet x =>
    simp only [LinkState.link, except_bind_eq_ok, except_pure_eq_ok] at h
    obtain ⟨k, hk, rfl⟩ := h
    exact push hs ⟨x, hi, hk⟩
  | call g =>
    simp only [LinkState.link, except_bind_eq_ok, except_pure_eq_ok] at h
    obtain ⟨k, -, rfl⟩ := h
    exact push hs trivial
  | callIndirect t =>
    simp only [LinkState.link] at h
    split at h
    · cases h
      exact push hs trivial
    · cases h
  | orElse =>
    simp only [LinkState.link] at h
    split at h
    · cases h
      exact patch (push hs (show f.Writes m is (.jump 0) from trivial)) _ _
    · cases h
  | endRegion =>
    simp only [LinkState.link] at h
    split at h
    · cases h
      exact patch hs _ _
    · cases h
  | br l => exact jumpTo hs (fun k => show f.Writes m is (.jump k) from trivial) h
  | brIf l => exact jumpTo hs (fun k => show f.Writes m is (.jumpIf k) from trivial) h
  | ifNonzero =>
    cases h
    exact push hs (show f.Writes m is (.jumpUnless 0) from trivial)
  | block l | loop l =>
    cases h
    exact hs
  | const _ | load _ | store _ | binary _ | eqz | drop | ret | unreachable =>
    cases h
    exact push hs trivial

theorem Func.Writes.linkAll {rest : List Instr} (hs : ∀ op ∈ s.code, f.Writes m is op)
    (hrest : ∀ i ∈ rest, i ∈ is) (h : rest.foldlM (LinkState.link m f) s = .ok s') :
    ∀ op ∈ s'.code, f.Writes m is op := by
  induction rest generalizing s with
  | nil =>
    cases h
    exact hs
  | cons i rest ih =>
    simp only [List.foldlM_cons, except_bind_eq_ok] at h
    obtain ⟨s₁, hi, h⟩ := h
    obtain ⟨hmem, hrest⟩ := List.forall_mem_cons.1 hrest
    exact ih (link hs hmem hi) hrest h

/-- What linking makes of a function. -/
theorem Func.link_eq_ok (h : f.link m = .ok lf) : ∃ s, f.body.foldlM (LinkState.link m f) {} = .ok s ∧
    s.regions = [] ∧ lf = ⟨f.name, f.params.length, (f.params ++ f.locals).eraseDups.length, s.code⟩ := by
  simp only [Func.link, except_bind_eq_ok] at h
  obtain ⟨s, hs, h⟩ := h
  split at h
  · cases h
  · next hempty =>
    rw [except_pure_eq_ok] at h
    exact ⟨s, hs, by simpa using hempty, h⟩

theorem Func.link_writes (h : f.link m = .ok lf) : ∀ op ∈ lf.code, f.Writes m f.body op := by
  obtain ⟨s, hs, -, rfl⟩ := Func.link_eq_ok h
  exact Func.Writes.linkAll (s := {}) (fun op hop => absurd hop (Array.not_mem_empty op))
    (fun _ hi => hi) hs

/-- The number of different names of parameters and locals. -/
def Func.slots (f : Func) : Nat := (f.params ++ f.locals).eraseDups.length

/-- The last places of all names are slots exactly if no name occurs twice. -/
theorem Func.fits_iff (f : Func) :
    (∀ x k, f.slot x = .ok k → k < f.slots) ↔ (f.params ++ f.locals).Nodup := by
  rw [← lastIndex?_lt_eraseDups_iff]
  have hslot : ∀ x k, f.slot x = .ok k ↔ lastIndex? x (f.params ++ f.locals) = some k := by
    intro x k
    unfold Func.slot
    cases lastIndex? x (f.params ++ f.locals) with
    | none => simp
    | some i => simp
  simp only [hslot]
  rfl

theorem Func.slot_lt {x : String} {k : Nat} (h : f.slot x = .ok k) :
    k < f.params.length + f.locals.length := by
  unfold Func.slot at h
  split at h
  · next i hi =>
    cases h
    rw [← List.length_append]
    exact lastIndex?_lt hi
  · cases h

theorem Module.globalIndex_lt {x : String} {k : Nat} (h : m.globalIndex x = .ok k) :
    k < m.globals.length := by
  unfold Module.globalIndex at h
  split at h
  · next i hi =>
    cases h
    simpa using lastIndex?_lt hi
  · cases h

/-! ### Linked modules -/

/-- What linking makes of a module. -/
structure Module.Links (m : Module) (L : LinkedModule) : Prop where
  imports : List.Forall₂ (fun i f => Import.link i = .ok f) m.imports L.imports.toList
  functions : List.Forall₂ (fun f lf => f.link m = .ok lf) m.functions L.functions.toList
  table : List.Forall₂ (fun x k => m.functionIndex x = .ok k) m.table L.table.toList
  globals : L.globals = (m.globals.map (·.init)).toArray
  entry : m.functionIndex m.entry.function = .ok L.entry

theorem Module.link_eq_ok {L : LinkedModule} (h : m.link = .ok L) : m.Links L := by
  simp only [Module.link, except_bind_eq_ok, except_pure_eq_ok] at h
  obtain ⟨imports, himports, functions, hfunctions, table, htable, entry, hentry, rfl⟩ := h
  exact ⟨forall₂_of_mapM himports, forall₂_of_mapM hfunctions, forall₂_of_mapM htable, rfl, hentry⟩

end Code

end ObjLang
