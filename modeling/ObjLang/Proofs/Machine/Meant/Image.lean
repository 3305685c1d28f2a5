import ObjLang.Proofs.Machine.Meant.Ends

/-!
# ObjLang.Proofs.Machine.Meant.Image — worlds in memory

An image says where the objects and the captured variables of a world lie in memory.  A word stands
for a value of a type by an image: a reference is the address of its object.  A store mirrors a
world if every field, every cell and every variable of the module holds the word that stands for its
value.
-/

namespace ObjLang

open Check

/-! ### Images -/

/-- Where the objects of a world lie in memory, by their numbers, and the cells of variables of
calls. -/
structure Image where
  objects : List Block
  cell : Nat → VarId → Option Nat

namespace Image

/-- An image that goes on from another one. -/
structure Sub (I I' : Image) : Prop where
  objects : ∀ (r : Nat) (B : Block), I.objects[r]? = some B → I'.objects[r]? = some B
  cell : ∀ a v q, I.cell a v = some q → I'.cell a v = some q

theorem Sub.refl (I : Image) : I.Sub I := ⟨fun _ _ h => h, fun _ _ _ h => h⟩

theorem Sub.trans {I I' I'' : Image} (h : I.Sub I') (h' : I'.Sub I'') : I.Sub I'' :=
  ⟨fun r B hr => h'.objects r B (h.objects r B hr),
    fun a v q hq => h'.cell a v q (h.cell a v q hq)⟩

/-- The image with a further object. -/
def add (I : Image) (B : Block) : Image := { I with objects := I.objects ++ [B] }

/-- The image with a further cell. -/
def addCell (I : Image) (a : Nat) (v : VarId) (q : Nat) : Image :=
  { I with cell := fun a' v' => if a' = a ∧ v' = v then some q else I.cell a' v' }

theorem sub_add (I : Image) (B : Block) : I.Sub (I.add B) :=
  ⟨fun _ _ h => (List.getElem?_append_left (List.getElem?_eq_some_iff.1 h).1).trans h,
    fun _ _ _ h => h⟩

theorem addCell_self (I : Image) (a : Nat) (v : VarId) (q : Nat) :
    (I.addCell a v q).cell a v = some q :=
  if_pos ⟨rfl, rfl⟩

theorem sub_addCell {I : Image} {a : Nat} {v : VarId} (h : I.cell a v = none) (q : Nat) :
    I.Sub (I.addCell a v q) := by
  refine ⟨fun _ _ hr => hr, fun a' v' q' hq => ?_⟩
  have hne : ¬ (a' = a ∧ v' = v) := by
    rintro ⟨rfl, rfl⟩
    cases h.symm.trans hq
  exact (if_neg hne).trans hq

end Image

/-! ### Words for values -/

/-- A word stands for a value of a type. -/
def Value.Stands (c : CheckedProgram) (I : Image) (v : Value) (x : Int32) : Ty → Prop
  | .int => v = .int x
  | .bool => ∃ b, v = .bool b ∧ x = truthWord b
  | .none => v = .none ∧ x = 0
  | .object k => (v = .none ∧ x = 0) ∨ ∃ (r : Nat) (B : Block) (l : ClassLayout), v = .object r ∧
      I.objects[r]? = some B ∧ x = Int32.ofNat B.address ∧ B.kind = .object l ∧
      c.classes.Below l.name k

namespace Value

variable {c : CheckedProgram} {I I' : Image} {v : Value} {x : Int32} {t t' : Ty}

theorem Stands.mono (h : v.Stands c I x t) (hI : I.Sub I') : v.Stands c I' x t := by
  cases t with
  | object k =>
    obtain h | ⟨r, B, l, hv, hr, hB⟩ := h
    · exact .inl h
    · exact .inr ⟨r, B, l, hv, hI.objects r B hr, hB⟩
  | _ => exact h

/-- The word for a literal stands for it at every type that it can be the first value of. -/
theorem stands_fits {u : Literal} (h : u.Fits t) : u.value.Stands c I u.word t := by
  obtain rfl | ⟨rfl, ht⟩ := h
  · cases u with
    | number n => exact rfl
    | bool b => exact ⟨b, rfl, rfl⟩
    | none => exact ⟨rfl, rfl⟩
  · cases t with
    | object k => exact .inl ⟨rfl, rfl⟩
    | _ => cases ht

/-- What stands for a value of a type stands for it at every type that it may be assigned to. -/
theorem Stands.assign {defs : List ClassDef} (hl : c.classes.LaidOut defs)
    (h : v.Stands c I x t) (ht : c.classes.hierarchy.isAssignable t t' = true) :
    v.Stands c I x t' := by
  obtain rfl | ⟨rfl, hobject⟩ | ⟨k, k', rfl, rfl, hk⟩ := hl.isAssignable_iff.1 ht
  · exact h
  · cases t' with
    | object k => exact .inl h
    | _ => cases hobject
  · obtain h | ⟨r, B, l, hv, hr, hx, hkind, hbelow⟩ := h
    · exact .inl h
    · exact .inr ⟨r, B, l, hv, hr, hx, hkind, hbelow.trans hk⟩

/-- A word that stands for a value of a type suits the type. -/
theorem Stands.suits {bs : List Block} (h : v.Stands c I x t) (hI : ∀ B ∈ I.objects, B ∈ bs) :
    c.Suits bs x t := by
  cases t with
  | int => trivial
  | bool =>
    obtain ⟨b, -, rfl⟩ := h
    exact c.suits_truthWord bs b
  | none => exact h.2
  | object k =>
    obtain ⟨-, h⟩ | ⟨r, B, l, -, hr, hx, hkind, hbelow⟩ := h
    · exact .inl h
    · exact .inr ⟨B, hI B (List.mem_of_getElem? hr), hx, l, hkind, hbelow⟩

end Value

/-! ### Stores that mirror worlds -/

/-- A word in one block stays where a word at another place is written. -/
theorem Block.word_setWord {bs : List Block} {B B' : Block} {j j' : Nat}
    (hapart : ∀ B ∈ bs, ∀ B' ∈ bs, B = B' ∨ B.stop ≤ B'.address ∨ B'.stop ≤ B.address)
    (hB : B ∈ bs) (hB' : B' ∈ bs) (hj : j < B.kind.words) (hj' : j' < B'.kind.words)
    (hne : ¬ (B' = B ∧ j' = j)) (m : Memory) (x : Int32) :
    (m.setWord (B.address + 4 * j) x).word (B'.address + 4 * j')
      = m.word (B'.address + 4 * j') := by
  have hstop : B.stop = B.address + 4 * B.kind.words := rfl
  have hstop' : B'.stop = B'.address + 4 * B'.kind.words := rfl
  refine Memory.word_setWord_of_apart ?_
  obtain rfl | hapart | hapart := hapart B hB B' hB'
  · have hne' : j' ≠ j := fun heq => hne ⟨rfl, heq⟩
    omega
  · omega
  · omega

namespace Setting

/-- A store holds, at the places that an image says, the words that stand for the values of a
world. -/
structure Mirrors (w : Setting) (I : Image) (σ : World) (bs : List Block) (st : Store) : Prop where
  length : I.objects.length = σ.objects.length
  object : ∀ (r : Nat) (B : Block), I.objects[r]? = some B → B ∈ bs ∧ ∃ l o,
    B.kind = .object l ∧ σ.objects[r]? = some o ∧ o.className = l.name ∧
    ∀ (j : Nat) (f : FieldLayout), l.fields[j]? = some f → ∃ v, List.lookup f.name o.fields = some v ∧
      v.Stands w.program I (st.memory.word (B.address + 4 * (j + 1))) f.ty
  distinct : ∀ (r r' : Nat) (B : Block), I.objects[r]? = some B → I.objects[r']? = some B → r = r'
  cell : ∀ a v q, I.cell a v = some q → ⟨q, .cell v⟩ ∈ bs ∧ a < σ.calls ∧
    (σ.vars ⟨some a, v⟩).Stands w.program I (st.memory.word q) (w.program.typeOf v)
  cells : ∀ a a' v v' q, I.cell a v = some q → I.cell a' v' = some q → a = a' ∧ v = v'
  global : ∀ d ∈ w.program.program.vars, ∀ v, d.binding = some v →
    ∃ x, st.globals[w.globalIndex d.var.name.name]? = some x ∧
      (σ.vars ⟨none, v⟩).Stands w.program I x (w.program.typeOf v)

namespace Mirrors

variable {w : Setting} {I : Image} {σ σ' : World} {bs bs' : List Block} {st st' : Store}
  {B : Block} {r a q : Nat} {v : VarId} {u : Value} {x : Int32}

theorem mem_blocks (h : w.Mirrors I σ bs st) : ∀ B ∈ I.objects, B ∈ bs := by
  intro B hB
  obtain ⟨r, hr⟩ := List.mem_iff_getElem?.1 hB
  exact (h.object r B hr).1

theorem suits {t : Ty} (h : w.Mirrors I σ bs st) (hu : u.Stands w.program I x t) :
    w.program.Suits bs x t :=
  hu.suits h.mem_blocks

/-- There are more blocks. -/
theorem blocks (h : w.Mirrors I σ bs st) (hbs : ∀ B ∈ bs, B ∈ bs') : w.Mirrors I σ bs' st where
  length := h.length
  object := fun r B hr => ⟨hbs B (h.object r B hr).1, (h.object r B hr).2⟩
  distinct := h.distinct
  cell := fun a v q hq => ⟨hbs _ (h.cell a v q hq).1, (h.cell a v q hq).2⟩
  cells := h.cells
  global := h.global

/-- The store changes, but neither in blocks nor in variables of the module. -/
theorem store (h : w.Mirrors I σ bs st)
    (hmemory : ∀ B ∈ bs, ∀ j < B.kind.words,
      st'.memory.word (B.address + 4 * j) = st.memory.word (B.address + 4 * j))
    (hglobals : ∀ d ∈ w.program.program.vars, st'.globals[w.globalIndex d.var.name.name]?
      = st.globals[w.globalIndex d.var.name.name]?) : w.Mirrors I σ bs st' where
  length := h.length
  object := fun r B hr => by
    obtain ⟨hB, l, o, hkind, ho, hclass, hfields⟩ := h.object r B hr
    refine ⟨hB, l, o, hkind, ho, hclass, fun j f hf => ?_⟩
    rw [hmemory B hB (j + 1)
      (by rw [hkind]; exact Nat.succ_lt_succ (List.getElem?_eq_some_iff.1 hf).1)]
    exact hfields j f hf
  distinct := h.distinct
  cell := fun a v q hq => by
    obtain ⟨hB, ha, hv⟩ := h.cell a v q hq
    have hword : st'.memory.word (q + 4 * 0) = st.memory.word (q + 4 * 0) :=
      hmemory ⟨q, .cell v⟩ hB 0 Nat.one_pos
    rw [Nat.mul_zero, Nat.add_zero] at hword
    exact ⟨hB, ha, hword ▸ hv⟩
  cells := h.cells
  global := fun d hd v hv => by
    rw [hglobals d hd]
    exact h.global d hd v hv

/-- The world changes, but neither objects nor variables of the module or with cells. -/
theorem world (h : w.Mirrors I σ bs st) (hobjects : σ'.objects = σ.objects)
    (hcalls : σ.calls ≤ σ'.calls)
    (hcells : ∀ a v q, I.cell a v = some q → σ'.vars ⟨some a, v⟩ = σ.vars ⟨some a, v⟩)
    (hvars : ∀ v, σ'.vars ⟨none, v⟩ = σ.vars ⟨none, v⟩) : w.Mirrors I σ' bs st where
  length := hobjects ▸ h.length
  object := hobjects ▸ h.object
  distinct := h.distinct
  cell := fun a v q hq => by
    obtain ⟨hB, ha, hv⟩ := h.cell a v q hq
    exact ⟨hB, Nat.lt_of_lt_of_le ha hcalls, hcells a v q hq ▸ hv⟩
  cells := h.cells
  global := fun d hd v hv => by
    rw [hvars]
    exact h.global d hd v hv

/-! ### Writes -/

/-- A variable of the module gets a value. -/
theorem setGlobal (h : w.Mirrors I σ bs st) {d : VarDef}
    (hv : d.binding = some v)
    (hunique : ∀ d' ∈ w.program.program.vars,
      w.globalIndex d'.var.name.name = w.globalIndex d.var.name.name → d'.binding = some v)
    (hsame : ∀ d' ∈ w.program.program.vars, d'.binding = some v →
      w.globalIndex d'.var.name.name = w.globalIndex d.var.name.name)
    (hu : u.Stands w.program I x (w.program.typeOf v)) :
    w.Mirrors I (σ.write ⟨none, v⟩ u) bs { st with
      globals := st.globals.setIfInBounds (w.globalIndex d.var.name.name) x } where
  length := h.length
  object := h.object
  distinct := h.distinct
  cell := fun a v' q hq => by
    obtain ⟨hB, ha, hstands⟩ := h.cell a v' q hq
    refine ⟨hB, ha, ?_⟩
    rw [World.write_module_call]
    exact hstands
  cells := h.cells
  global := fun d' hd' v' hv' => by
    obtain ⟨y, hy, hstands⟩ := h.global d' hd' v' hv'
    by_cases heq : v' = v
    · subst heq
      obtain ⟨hlt, -⟩ := Array.getElem?_eq_some_iff.1 hy
      rw [hsame d' hd' hv'] at hlt ⊢
      rw [World.write_self]
      exact ⟨x, Array.getElem?_setIfInBounds_self_of_lt hlt, hu⟩
    · rw [World.write_of_ne fun hpl => heq (congrArg Place.var hpl)]
      refine ⟨y, (Array.getElem?_setIfInBounds_ne fun hindex => heq ?_).trans hy, hstands⟩
      exact Option.some.inj (hv'.symm.trans (hunique d' hd' hindex.symm))

section

variable (hapart : ∀ B ∈ bs, ∀ B' ∈ bs, B = B' ∨ B.stop ≤ B'.address ∨ B'.stop ≤ B.address)

include hapart

/-- A variable with a cell gets a value. -/
theorem setCell (h : w.Mirrors I σ bs st) (hq : I.cell a v = some q)
    (hu : u.Stands w.program I x (w.program.typeOf v)) :
    w.Mirrors I (σ.write ⟨some a, v⟩ u) bs { st with memory := st.memory.setWord q x } := by
  obtain ⟨hB, -, -⟩ := h.cell a v q hq
  have hword : ∀ B' ∈ bs, ∀ j' < B'.kind.words, ¬ (B' = ⟨q, .cell v⟩ ∧ j' = 0) →
      (st.memory.setWord q x).word (B'.address + 4 * j') = st.memory.word (B'.address + 4 * j') :=
    fun B' hB' j' hj' hne => Block.word_setWord hapart hB hB' (j := 0) Nat.one_pos hj' hne _ _
  refine ⟨h.length, fun r B hr => ?_, h.distinct, fun a' v' q' hq' => ?_, h.cells,
    fun d hd v' hv' => ?_⟩
  · obtain ⟨hB', l, o, hkind, ho, hclass, hfields⟩ := h.object r B hr
    refine ⟨hB', l, o, hkind, ho, hclass, fun j f hf => ?_⟩
    rw [hword B hB' (j + 1)
      (by rw [hkind]; exact Nat.succ_lt_succ (List.getElem?_eq_some_iff.1 hf).1)
      fun hcon => Nat.succ_ne_zero j hcon.2]
    exact hfields j f hf
  · obtain ⟨hB', ha', hstands⟩ := h.cell a' v' q' hq'
    refine ⟨hB', ha', ?_⟩
    by_cases heq : a' = a ∧ v' = v
    · obtain ⟨rfl, rfl⟩ := heq
      obtain rfl : q = q' := Option.some.inj (hq.symm.trans hq')
      rw [World.write_self]
      exact Memory.word_setWord.symm ▸ hu
    · have hne : ¬ (Block.mk q' (.cell v') = ⟨q, .cell v⟩ ∧ 0 = 0) := by
        rintro ⟨hsame, -⟩
        obtain ⟨rfl, -⟩ := Block.mk.inj hsame
        exact heq (h.cells a' a v' v q' hq' hq)
      have hsame := hword ⟨q', .cell v'⟩ hB' 0 Nat.one_pos hne
      rw [Nat.mul_zero, Nat.add_zero] at hsame
      rw [World.write_of_ne fun hpl =>
        heq ⟨Option.some.inj (congrArg Place.call hpl), congrArg Place.var hpl⟩]
      exact hsame.symm ▸ hstands
  · rw [World.write_call_module]
    exact h.global d hd v' hv'

/-- A field of an object gets a value. -/
theorem setField (h : w.Mirrors I σ bs st) (hr : I.objects[r]? = some B) {l : ClassLayout}
    (hkind : B.kind = .object l) {j : Nat} {f : FieldLayout} (hf : l.fields[j]? = some f)
    (hnd : (l.fields.map FieldLayout.name).Nodup) (hu : u.Stands w.program I x f.ty) :
    w.Mirrors I (σ.setField r f.name u) bs { st with
      memory := st.memory.setWord (B.address + 4 * (j + 1)) x } := by
  obtain ⟨hB, -⟩ := h.object r B hr
  have hj : j + 1 < B.kind.words := by
    rw [hkind]
    exact Nat.succ_lt_succ (List.getElem?_eq_some_iff.1 hf).1
  have hword : ∀ B' ∈ bs, ∀ j' < B'.kind.words, ¬ (B' = B ∧ j' = j + 1) →
      (st.memory.setWord (B.address + 4 * (j + 1)) x).word (B'.address + 4 * j')
        = st.memory.word (B'.address + 4 * j') :=
    fun B' hB' j' hj' hne => Block.word_setWord hapart hB hB' hj hj' hne _ _
  refine ⟨?_, fun r' B' hr' => ?_, h.distinct, fun a' v' q' hq' => ?_, h.cells, h.global⟩
  · rw [h.length, World.setField, List.length_modify]
  · obtain ⟨hB', l', o, hkind', ho, hclass, hfields⟩ := h.object r' B' hr'
    have hlt : ∀ {j' : Nat} {f' : FieldLayout}, l'.fields[j']? = some f' →
        j' + 1 < B'.kind.words := fun hf' => by
      rw [hkind']
      exact Nat.succ_lt_succ (List.getElem?_eq_some_iff.1 hf').1
    by_cases hsame : r' = r
    · subst hsame
      obtain rfl : B = B' := Option.some.inj (hr.symm.trans hr')
      cases hkind.symm.trans hkind'
      refine ⟨hB', l, { o with fields := o.fields.insert f.name u }, hkind, ?_, hclass,
        fun j' f' hf' => ?_⟩
      · exact World.setField_self ho
      · by_cases heq : j' = j
        · subst heq
          cases hf.symm.trans hf'
          exact ⟨u, Bindings.lookup_insert_self .., Memory.word_setWord ▸ hu⟩
        · obtain ⟨v', hv', hstands⟩ := hfields j' f' hf'
          have hname : f'.name ≠ f.name := by
            intro hname
            have hlen : j' < (l.fields.map FieldLayout.name).length :=
              (List.getElem?_eq_some_iff.1 hf').1.trans_eq (List.length_map _).symm
            refine heq ((List.getElem?_inj hlen hnd).1 ?_)
            rw [List.getElem?_map, List.getElem?_map, hf, hf', Option.map_some, hname,
              Option.map_some]
          · refine ⟨v', (Bindings.lookup_insert_of_ne hname _ _).trans hv', ?_⟩
            rw [hword B hB' (j' + 1) (hlt hf') fun hcon => heq (Nat.succ.inj hcon.2)]
            exact hstands
    · refine ⟨hB', l', o, hkind', ?_, hclass, fun j' f' hf' => ?_⟩
      · exact (World.setField_of_ne hsame).trans ho
      · rw [hword B' hB' (j' + 1) (hlt hf') fun hcon => hsame ?_]
        · exact hfields j' f' hf'
        · exact h.distinct r' r B (hcon.1 ▸ hr') hr
  · obtain ⟨hB', ha', hstands⟩ := h.cell a' v' q' hq'
    refine ⟨hB', ha', ?_⟩
    have hsame := hword _ hB' 0 Nat.one_pos fun hcon => Nat.succ_ne_zero j hcon.2.symm
    rw [Nat.mul_zero, Nat.add_zero] at hsame
    rw [show (st.memory.setWord (B.address + 4 * (j + 1)) x).word q' = st.memory.word q' from hsame]
    exact hstands

end

/-! ### New blocks -/

/-- A new object comes into the image. -/
theorem make (h : w.Mirrors I σ bs st) (hB : B ∈ bs) (hnew : B ∉ I.objects) {l : ClassLayout}
    (hkind : B.kind = .object l) {o : Object} (hclass : o.className = l.name)
    (hfields : ∀ (j : Nat) (f : FieldLayout), l.fields[j]? = some f →
      ∃ v, List.lookup f.name o.fields = some v ∧
        v.Stands w.program I (st.memory.word (B.address + 4 * (j + 1))) f.ty) :
    w.Mirrors (I.add B) (σ.make o) bs st := by
  have hsub := I.sub_add B
  have hcases : ∀ {r : Nat} {B' : Block}, (I.add B).objects[r]? = some B' →
      I.objects[r]? = some B' ∨ (r = I.objects.length ∧ B' = B) := by
    intro r B' hr
    obtain hlt | hle := Nat.lt_or_ge r I.objects.length
    · exact .inl ((List.getElem?_append_left hlt).symm.trans hr)
    · obtain ⟨hlt, hget⟩ := List.getElem?_eq_some_iff.1 hr
      have hlen : r < I.objects.length + 1 := by simpa [Image.add] using hlt
      obtain rfl : r = I.objects.length := by omega
      have hlast : (I.objects ++ [B])[I.objects.length]? = some B := List.getElem?_concat_length
      exact .inr ⟨rfl, Option.some.inj (hr.symm.trans hlast)⟩
  refine ⟨?_, fun r B' hr => ?_, fun r r' B' hr hr' => ?_, fun a v q hq => ?_, h.cells,
    fun d hd v hv => ?_⟩
  · simp [Image.add, World.make, h.length]
  · obtain hr | ⟨rfl, rfl⟩ := hcases hr
    · obtain ⟨hB', l', o', hkind', ho', hclass', hfields'⟩ := h.object r B' hr
      refine ⟨hB', l', o', hkind', ?_, hclass', fun j f hf => ?_⟩
      · exact (List.getElem?_append_left (List.getElem?_eq_some_iff.1 ho').1).trans ho'
      · obtain ⟨v, hv, hstands⟩ := hfields' j f hf
        exact ⟨v, hv, hstands.mono hsub⟩
    · refine ⟨hB, l, o, hkind, ?_, hclass, fun j f hf => ?_⟩
      · rw [h.length]
        exact List.getElem?_concat_length
      · obtain ⟨v, hv, hstands⟩ := hfields j f hf
        exact ⟨v, hv, hstands.mono hsub⟩
  · obtain hold | ⟨hr, heq⟩ := hcases hr
    · obtain hold' | ⟨-, heq⟩ := hcases hr'
      · exact h.distinct r r' B' hold hold'
      · exact absurd (heq ▸ List.mem_of_getElem? hold) hnew
    · obtain hold' | ⟨hr', -⟩ := hcases hr'
      · exact absurd (heq ▸ List.mem_of_getElem? hold') hnew
      · rw [hr, hr']
  · obtain ⟨hB', ha, hstands⟩ := h.cell a v q hq
    exact ⟨hB', ha, hstands.mono hsub⟩
  · obtain ⟨x, hx, hstands⟩ := h.global d hd v hv
    exact ⟨x, hx, hstands.mono hsub⟩

/-- A new cell comes into the image. -/
theorem addCell (h : w.Mirrors I σ bs st) (hB : ⟨q, .cell v⟩ ∈ bs) (ha : a < σ.calls)
    (hnone : I.cell a v = none) (hnew : ∀ a' v', I.cell a' v' ≠ some q)
    (hu : (σ.vars ⟨some a, v⟩).Stands w.program I (st.memory.word q) (w.program.typeOf v)) :
    w.Mirrors (I.addCell a v q) σ bs st := by
  have hsub := Image.sub_addCell hnone q
  have hcases : ∀ {a' : Nat} {v' : VarId} {q' : Nat}, (I.addCell a v q).cell a' v' = some q' →
      I.cell a' v' = some q' ∨ (a' = a ∧ v' = v ∧ q' = q) := by
    intro a' v' q' hq'
    simp only [Image.addCell] at hq'
    split at hq'
    · next heq => exact .inr ⟨heq.1, heq.2, (Option.some.inj hq').symm⟩
    · exact .inl hq'
  refine ⟨h.length, fun r B' hr => ?_, h.distinct, fun a' v' q' hq' => ?_,
    fun a₁ a₂ v₁ v₂ q' h₁ h₂ => ?_, fun d hd v hv => ?_⟩
  · obtain ⟨hB', l', o', hkind', ho', hclass', hfields'⟩ := h.object r B' hr
    refine ⟨hB', l', o', hkind', ho', hclass', fun j f hf => ?_⟩
    obtain ⟨v, hv, hstands⟩ := hfields' j f hf
    exact ⟨v, hv, hstands.mono hsub⟩
  · obtain hq' | ⟨rfl, rfl, rfl⟩ := hcases hq'
    · obtain ⟨hB', ha', hstands⟩ := h.cell a' v' q' hq'
      exact ⟨hB', ha', hstands.mono hsub⟩
    · exact ⟨hB, ha, hu.mono hsub⟩
  · obtain hold₁ | ⟨ha₁, hv₁, hq₁⟩ := hcases h₁
    · obtain hold₂ | ⟨-, -, hq₂⟩ := hcases h₂
      · exact h.cells a₁ a₂ v₁ v₂ q' hold₁ hold₂
      · exact absurd (hq₂ ▸ hold₁) (hnew _ _)
    · obtain hold₂ | ⟨ha₂, hv₂, -⟩ := hcases h₂
      · exact absurd (hq₁ ▸ hold₂) (hnew _ _)
      · exact ⟨ha₁.trans ha₂.symm, hv₁.trans hv₂.symm⟩
  · obtain ⟨x, hx, hstands⟩ := h.global d hd v hv
    exact ⟨x, hx, hstands.mono hsub⟩

end Mirrors

end Setting

end ObjLang
