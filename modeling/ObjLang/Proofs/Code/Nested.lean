import ObjLang.Code.Module
import ObjLang.Host
import ObjLang.Linked.Link

/-!
# ObjLang.Proofs.Code.Nested — code as a tree of regions

A function body is a flat list.  If every region is closed it is the listing of one tree, in which a
conditional region has its parts one after the other, an `orElse` between them.  A module is well
formed if every body is such a listing with at most two parts in each conditional region, branches
name regions around them, and all other names are declared.
-/

namespace ObjLang.Code

/-- A piece of code in which every region is closed. -/
inductive Item where
  | plain (i : Instr)
  | block (label : String) (body : List Item)
  | loop (label : String) (body : List Item)
  | cond (first : List Item) (others : List (List Item))

mutual

/-- The instructions of an item. -/
def Item.code : Item → List Instr
  | .plain i => [i]
  | .block l body => .block l :: itemsCode body ++ [.endRegion]
  | .loop l body => .loop l :: itemsCode body ++ [.endRegion]
  | .cond first others => .ifNonzero :: itemsCode first ++ (othersCode others ++ [.endRegion])

/-- The instructions of items in order. -/
def itemsCode : List Item → List Instr
  | [] => []
  | t :: ts => t.code ++ itemsCode ts

/-- The instructions of further parts of a conditional region. -/
def othersCode : List (List Item) → List Instr
  | [] => []
  | p :: ps => .orElse :: itemsCode p ++ othersCode ps

end

/-! ### Names and branches -/

/-- Whether an instruction divides no region, names only what there is, and branches only to one of
some labels. -/
def Func.Admits (m : Module) (f : Func) (labels : List String) : Instr → Prop
  | .localGet x | .localSet x => x ∈ f.params ++ f.locals
  | .globalGet x | .globalSet x => x ∈ m.globals.map (·.name)
  | .call g => g ∈ m.functionNames
  | .callIndirect t => t ∈ m.types.map (·.name)
  | .br l | .brIf l => l ∈ labels
  | .block _ | .loop _ | .ifNonzero | .orElse | .endRegion => False
  | _ => True

mutual

/-- Whether an item, inside blocks and loops of some labels, is right in its names and branches. -/
def Item.Fits (m : Module) (f : Func) (labels : List String) : Item → Prop
  | .plain i => f.Admits m labels i
  | .block l body | .loop l body => ItemsFit m f (l :: labels) body
  | .cond first others => ItemsFit m f labels first ∧ PartsFit m f labels others

/-- Whether items in order are. -/
def ItemsFit (m : Module) (f : Func) (labels : List String) : List Item → Prop
  | [] => True
  | t :: ts => t.Fits m f labels ∧ ItemsFit m f labels ts

/-- Whether parts of a conditional region are. -/
def PartsFit (m : Module) (f : Func) (labels : List String) : List (List Item) → Prop
  | [] => True
  | p :: ps => ItemsFit m f labels p ∧ PartsFit m f labels ps

end

/-- Whether an instruction opens, divides and closes no region. -/
def Instr.IsPlain : Instr → Prop
  | .block _ | .loop _ | .ifNonzero | .orElse | .endRegion => False
  | _ => True

mutual

/-- Whether conditional regions have at most two parts. -/
def Item.Binary : Item → Prop
  | .plain i => i.IsPlain
  | .block _ body | .loop _ body => ItemsBinary body
  | .cond first others => others.length ≤ 1 ∧ ItemsBinary first ∧ PartsBinary others

/-- Whether conditional regions in items have. -/
def ItemsBinary : List Item → Prop
  | [] => True
  | t :: ts => t.Binary ∧ ItemsBinary ts

/-- Whether conditional regions in parts of one have. -/
def PartsBinary : List (List Item) → Prop
  | [] => True
  | p :: ps => ItemsBinary p ∧ PartsBinary ps

end

/-! ### Well-formed modules -/

/-- Whether an import asks for a host function that there is, with its parameters and result. -/
def Import.Known (i : Import) : Prop :=
  ∃ h, HostFunction.ofField? i.field = some h ∧ h.params = i.params ∧ h.hasResult = i.hasResult

/-- A module whose regions are closed and whose names are all declared. -/
structure Module.Closed (m : Module) : Prop where
  imports : ∀ i ∈ m.imports, i.Known
  bodies : ∀ f ∈ m.functions, ∃ items, itemsCode items = f.body ∧ ItemsFit m f [] items
  table : ∀ x ∈ m.table, x ∈ m.functionNames
  entry : m.entry.function ∈ m.functionNames

/-- Whether no conditional region of a body has more than one `orElse`. -/
def Func.Binary (f : Func) : Prop := ∃ items, itemsCode items = f.body ∧ ItemsBinary items

/-- A module in which, moreover, no conditional region has more than one `orElse`. -/
structure Module.WellFormed (m : Module) : Prop where
  imports : ∀ i ∈ m.imports, i.Known
  bodies : ∀ f ∈ m.functions, ∃ items, itemsCode items = f.body ∧ ItemsFit m f [] items ∧
    ItemsBinary items
  table : ∀ x ∈ m.table, x ∈ m.functionNames
  entry : m.entry.function ∈ m.functionNames

/-! ### Lists of items -/

theorem itemsCode_append (ts us : List Item) :
    itemsCode (ts ++ us) = itemsCode ts ++ itemsCode us := by
  induction ts with
  | nil => rfl
  | cons t ts ih => rw [List.cons_append, itemsCode, itemsCode, ih, List.append_assoc]

theorem othersCode_append (ps qs : List (List Item)) :
    othersCode (ps ++ qs) = othersCode ps ++ othersCode qs := by
  induction ps with
  | nil => rfl
  | cons p ps ih =>
    rw [List.cons_append, othersCode, othersCode, ih, List.append_assoc]

theorem itemsFit_append {m : Module} {f : Func} {labels : List String} {ts us : List Item} :
    ItemsFit m f labels (ts ++ us) ↔ ItemsFit m f labels ts ∧ ItemsFit m f labels us := by
  induction ts with
  | nil => simp [ItemsFit]
  | cons t ts ih => rw [List.cons_append, ItemsFit, ItemsFit, ih, and_assoc]

theorem partsFit_append {m : Module} {f : Func} {labels : List String} {ps qs : List (List Item)} :
    PartsFit m f labels (ps ++ qs) ↔ PartsFit m f labels ps ∧ PartsFit m f labels qs := by
  induction ps with
  | nil => simp [PartsFit]
  | cons p ps ih => rw [List.cons_append, PartsFit, PartsFit, ih, and_assoc]

/-! ### One tree for a body -/

theorem Func.Admits.isPlain {m : Module} {f : Func} {labels : List String} {i : Instr}
    (h : f.Admits m labels i) : i.IsPlain := by
  cases i with
  | block l | loop l | ifNonzero | orElse | endRegion => exact h
  | _ => trivial

/-- What can stand behind items in code: the end, or an instruction that divides or closes the region
around them. -/
def Closes (rest : List Instr) : Prop := ∀ i, rest.head? = some i → i = .orElse ∨ i = .endRegion

theorem closes_end (rest : List Instr) : Closes (.endRegion :: rest) := by
  rintro i ⟨⟩
  exact .inr rfl

theorem closes_others (ps : List (List Item)) (rest : List Instr) :
    Closes (othersCode ps ++ .endRegion :: rest) := by
  cases ps with
  | nil => exact closes_end rest
  | cons p ps =>
    rintro i ⟨⟩
    exact .inl rfl

/-- An item starts with an instruction that divides and closes no region. -/
theorem Item.not_closes {m : Module} {f : Func} {labels : List String} {t : Item}
    (h : t.Fits m f labels ∨ t.Binary) (rest : List Instr) : ¬ Closes (t.code ++ rest) := by
  intro hc
  cases t with
  | plain i =>
    have hi : i.IsPlain := by
      obtain h | h := h
      · exact Func.Admits.isPlain h
      · exact h
    obtain rfl | rfl := hc i rfl
    · exact hi
    · exact hi
  | block l body => exact absurd (hc _ rfl) (by simp)
  | loop l body => exact absurd (hc _ rfl) (by simp)
  | cond first others => exact absurd (hc _ rfl) (by simp)

section

variable {m : Module} {f : Func}

mutual

theorem Item.unique (t u : Item) {labels : List String} {r r' : List Instr}
    (ht : t.Fits m f labels) (hu : u.Binary) (h : t.code ++ r = u.code ++ r') : t = u ∧ r = r' := by
  cases t with
  | plain i =>
    have hi : i.IsPlain := Func.Admits.isPlain ht
    cases u with
    | plain j =>
      obtain ⟨rfl, rfl⟩ := List.cons.inj h
      exact ⟨rfl, rfl⟩
    | block l body | loop l body | cond first others =>
      obtain ⟨rfl, -⟩ := List.cons.inj h
      exact hi.elim
  | block l body =>
    cases u with
    | plain j =>
      obtain ⟨rfl, -⟩ := List.cons.inj h
      exact hu.elim
    | block l' body' =>
      simp only [Item.code, List.cons_append, List.append_assoc, List.nil_append, List.cons.injEq,
        Instr.block.injEq] at h
      obtain ⟨rfl, h⟩ := h
      obtain ⟨rfl, hr⟩ := items_unique body body' ht hu (closes_end _) (closes_end _) h
      exact ⟨rfl, (List.cons.inj hr).2⟩
    | loop l' body' => cases (List.cons.inj h).1
    | cond first others => cases (List.cons.inj h).1
  | loop l body =>
    cases u with
    | plain j =>
      obtain ⟨rfl, -⟩ := List.cons.inj h
      exact hu.elim
    | block l' body' => cases (List.cons.inj h).1
    | loop l' body' =>
      simp only [Item.code, List.cons_append, List.append_assoc, List.nil_append, List.cons.injEq,
        Instr.loop.injEq] at h
      obtain ⟨rfl, h⟩ := h
      obtain ⟨rfl, hr⟩ := items_unique body body' ht hu (closes_end _) (closes_end _) h
      exact ⟨rfl, (List.cons.inj hr).2⟩
    | cond first others => cases (List.cons.inj h).1
  | cond first others =>
    cases u with
    | plain j =>
      obtain ⟨rfl, -⟩ := List.cons.inj h
      exact hu.elim
    | block l' body' => cases (List.cons.inj h).1
    | loop l' body' => cases (List.cons.inj h).1
    | cond first' others' =>
      simp only [Item.code, List.cons_append, List.append_assoc, List.nil_append, List.cons.injEq,
        true_and] at h
      obtain ⟨rfl, hothers⟩ := items_unique first first' ht.1 hu.2.1 (closes_others _ _)
        (closes_others _ _) h
      obtain ⟨rfl, hr⟩ := others_unique others others' ht.2 hu.2.2 hothers
      exact ⟨rfl, hr⟩

theorem items_unique (ts us : List Item) {labels : List String} {r r' : List Instr}
    (ht : ItemsFit m f labels ts) (hu : ItemsBinary us) (hr : Closes r) (hr' : Closes r')
    (h : itemsCode ts ++ r = itemsCode us ++ r') : ts = us ∧ r = r' := by
  cases ts with
  | nil =>
    cases us with
    | nil => exact ⟨rfl, h⟩
    | cons u us =>
      rw [itemsCode, List.nil_append, itemsCode, List.append_assoc] at h
      exact absurd (h ▸ hr)
        (Item.not_closes (show u.Fits m f labels ∨ u.Binary from .inr hu.1) _)
  | cons t ts =>
    cases us with
    | nil =>
      rw [itemsCode, itemsCode, List.nil_append, List.append_assoc] at h
      exact absurd (h ▸ hr') (Item.not_closes (.inl ht.1) _)
    | cons u us =>
      rw [itemsCode, itemsCode, List.append_assoc, List.append_assoc] at h
      obtain ⟨rfl, hitems⟩ := Item.unique t u ht.1 hu.1 h
      obtain ⟨rfl, hrest⟩ := items_unique ts us ht.2 hu.2 hr hr' hitems
      exact ⟨rfl, hrest⟩

theorem others_unique (ps qs : List (List Item)) {labels : List String} {r r' : List Instr}
    (hp : PartsFit m f labels ps) (hq : PartsBinary qs)
    (h : othersCode ps ++ .endRegion :: r = othersCode qs ++ .endRegion :: r') :
    ps = qs ∧ r = r' := by
  cases ps with
  | nil =>
    cases qs with
    | nil => exact ⟨rfl, (List.cons.inj h).2⟩
    | cons q qs => cases (List.cons.inj h).1
  | cons p ps =>
    cases qs with
    | nil => cases (List.cons.inj h).1
    | cons q qs =>
      simp only [othersCode, List.cons_append, List.append_assoc, List.cons.injEq, true_and] at h
      obtain ⟨rfl, hothers⟩ := items_unique p q hp.1 hq.1 (closes_others _ _) (closes_others _ _) h
      obtain ⟨rfl, hr⟩ := others_unique ps qs hp.2 hq.2 hothers
      exact ⟨rfl, hr⟩

end

/-- A body is the listing of at most one tree. -/
theorem eq_of_itemsCode {ts us : List Item} {labels : List String} (ht : ItemsFit m f labels ts)
    (hu : ItemsBinary us) (h : itemsCode ts = itemsCode us) : ts = us := by
  have hend : Closes [] := nofun
  exact (items_unique ts us ht hu hend hend (by rw [h])).1

end

end ObjLang.Code
