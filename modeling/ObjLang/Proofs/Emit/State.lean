import ObjLang.Proofs.Code.Names
import ObjLang.Proofs.Emit.Shape
import ObjLang.Proofs.Runs

/-!
# ObjLang.Proofs.Emit.State — steps of code generation

What the small steps of code generation do to the function and the module being built: they add
locals with names of their own, labels and signatures, and nothing else.
-/

namespace ObjLang.Emit

open Code (Instr FunctionBuilder ModuleBuilder)

variable {c : CheckedProgram} {s s' : State}

/-! ### Small steps -/

theorem stop_eq_ok {α : Type} {e : Code.InternalError} {r : α × State} :
    (stop e : EmitM α) s = .ok r ↔ False :=
  throw_eq_ok

theorem bound_eq_ok {b : Option VarId} {x : String} {r : Variable × State} :
    bound c b x s = .ok r ↔ ∃ v, b = some v ∧ r = (c.var v, s) := by
  cases b with
  | none => simp [bound, stop_eq_ok]
  | some v => simp [bound, pure_eq_ok]

theorem tyOf_eq_ok {e : Expr} {r : Ty × State} :
    tyOf e s = .ok r ↔ e.ty = some r.1 ∧ r.2 = s := by
  obtain ⟨t, s'⟩ := r
  unfold tyOf
  cases h : e.ty with
  | none => simp [stop_eq_ok]
  | some ty =>
    simp only [pure_eq_ok, Prod.mk.injEq, Option.some.injEq]
    exact and_congr_left fun _ => eq_comm

theorem layoutOf_eq_ok {k : String} {r : ClassLayout × State} :
    layoutOf c k s = .ok r ↔ c.classes.get? k = some r.1 ∧ r.2 = s := by
  obtain ⟨l, s'⟩ := r
  unfold layoutOf
  cases h : c.classes.get? k with
  | none => simp [stop_eq_ok]
  | some l' =>
    simp only [pure_eq_ok, Prod.mk.injEq, Option.some.injEq]
    exact and_congr_left fun _ => eq_comm

theorem receiverLayout_eq_ok {o : Expr} {r : ClassLayout × State} :
    receiverLayout c o s = .ok r ↔ ReceiverLayout c o r.1 ∧ r.2 = s := by
  unfold receiverLayout ReceiverLayout
  rw [bind_eq_ok]
  simp only [tyOf_eq_ok]
  constructor
  · rintro ⟨t, s₁, ⟨ht, rfl⟩, h⟩
    cases t with
    | object k =>
      obtain ⟨hl, hs⟩ := layoutOf_eq_ok.1 h
      exact ⟨⟨k, ht, hl⟩, hs⟩
    | _ => exact (stop_eq_ok.1 h).elim
  · rintro ⟨⟨k, ht, hl⟩, hs⟩
    exact ⟨_, s, ⟨ht, rfl⟩, layoutOf_eq_ok.2 ⟨hl, hs⟩⟩

theorem fieldOffset_eq_ok {o : Expr} {x : String} {r : Nat × State} :
    fieldOffset c o x s = .ok r ↔ ∃ l i d, ReceiverLayout c o l ∧ l.field? x = some (i, d) ∧
      r = (ClassLayout.fieldOffset i, s) := by
  unfold fieldOffset
  simp only [bind_eq_ok, receiverLayout_eq_ok]
  constructor
  · rintro ⟨l, s₁, ⟨hl, rfl⟩, h⟩
    cases hf : l.field? x with
    | none => simp [hf, stop_eq_ok] at h
    | some p =>
      simp only [hf, pure_eq_ok] at h
      exact ⟨l, p.1, p.2, hl, hf, h⟩
  · rintro ⟨l, i, d, hl, hf, rfl⟩
    exact ⟨l, s, ⟨hl, rfl⟩, by simp [hf, pure_eq_ok]⟩

theorem slotOf_eq_ok {o : Expr} {x : String} {r : Nat × State} :
    slotOf c o x s = .ok r ↔ ∃ l i e, ReceiverLayout c o l ∧ l.method? x = some (i, e) ∧
      r = (i, s) := by
  unfold slotOf
  simp only [bind_eq_ok, receiverLayout_eq_ok]
  constructor
  · rintro ⟨l, s₁, ⟨hl, rfl⟩, h⟩
    cases hm : l.method? x with
    | none => simp [hm, stop_eq_ok] at h
    | some p =>
      simp only [hm, pure_eq_ok] at h
      exact ⟨l, p.1, p.2, hl, hm, h⟩
  · rintro ⟨l, i, e, hl, hm, rfl⟩
    exact ⟨l, s, ⟨hl, rfl⟩, by simp [hm, pure_eq_ok]⟩

theorem newLabel_eq_ok {x : String} {r : String × State} :
    newLabel x s = .ok r ↔ r = (x ++ toString s.function.nextLabel,
      { s with function := (s.function.newLabel x).2 }) := by
  unfold newLabel
  simp only [bind_eq_ok, get_eq_ok, set_eq_ok, pure_eq_ok, Prod.mk.injEq, and_assoc,
    exists_and_left, exists_eq_left]
  simp [FunctionBuilder.newLabel]

theorem newTemp_eq_ok {x : String} {r : String × State} :
    newTemp x s = .ok r ↔ r = (x ++ toString s.function.nextLabel,
      { s with function := (s.function.newTemp x).2 }) := by
  unfold newTemp
  simp only [bind_eq_ok, get_eq_ok, set_eq_ok, pure_eq_ok, Prod.mk.injEq, and_assoc,
    exists_and_left, exists_eq_left]
  simp [FunctionBuilder.newTemp, FunctionBuilder.newLabel]

theorem addLocal_eq_ok {x : String} {r : Unit × State} :
    addLocal x s = .ok r ↔ r = ((), { s with function := s.function.addLocal x }) := by
  unfold addLocal
  rw [modify_eq_ok]

theorem signature_eq_ok {k : Nat} {r : String × State} :
    signature k s = .ok r ↔
      r = (Code.signatureName k, { s with module := s.module.signature k }) := by
  unfold signature
  simp only [bind_eq_ok, modify_eq_ok, pure_eq_ok]
  constructor
  · rintro ⟨_, _, ⟨-, rfl⟩, h⟩
    exact h
  · rintro rfl
    exact ⟨(), _, rfl, rfl⟩

/-! ### What they leave -/

/-- Signatures that go by the name of their number of parameters. -/
def Signed (types : List Code.FuncType) : Prop :=
  ∀ t ∈ types, t.name = Code.signatureName t.params

/-- Code generation went from `s` to `s'`. -/
structure Emits (s s' : State) : Prop where
  function : s.function.Grows s'.function
  types : ∀ t ∈ s.module.types, t ∈ s'.module.types
  signed : Signed s.module.types → Signed s'.module.types
  module : s'.module = { s.module with types := s'.module.types }

theorem Emits.refl (s : State) : Emits s s := ⟨.refl _, fun _ h => h, fun h => h, rfl⟩

theorem Emits.trans {t : State} (h : Emits s s') (h' : Emits s' t) : Emits s t where
  function := h.function.trans h'.function
  types := fun u hu => h'.types u (h.types u hu)
  signed := fun hs => h'.signed (h.signed hs)
  module := by rw [h'.module, h.module]

theorem emits_function {b : FunctionBuilder} (h : s.function.Grows b) :
    Emits s { s with function := b } :=
  ⟨h, fun _ ht => ht, fun hs => hs, rfl⟩

theorem mem_signature (m : ModuleBuilder) (k : Nat) :
    ∃ t ∈ (m.signature k).types, t.params = k := by
  unfold ModuleBuilder.signature
  split
  · next h =>
    obtain ⟨t, ht, hk⟩ := List.any_eq_true.1 h
    exact ⟨t, ht, by simpa using hk⟩
  · exact ⟨⟨Code.signatureName k, k⟩, by simp, rfl⟩

theorem types_signature {m : ModuleBuilder} {k : Nat} {t : Code.FuncType} (h : t ∈ m.types) :
    t ∈ (m.signature k).types := by
  unfold ModuleBuilder.signature
  split
  · exact h
  · exact List.mem_append_left _ h

theorem signed_signature {m : ModuleBuilder} (h : Signed m.types) (k : Nat) :
    Signed (m.signature k).types := by
  unfold ModuleBuilder.signature
  split
  · exact h
  · intro t ht
    obtain ht | ht := List.mem_append.1 ht
    · exact h t ht
    · obtain rfl := List.mem_singleton.1 ht
      rfl

theorem signature_eq (m : ModuleBuilder) (k : Nat) :
    m.signature k = { m with types := (m.signature k).types } := by
  unfold ModuleBuilder.signature
  split <;> rfl

theorem emits_signature (s : State) (k : Nat) :
    Emits s { s with module := s.module.signature k } :=
  ⟨.refl _, fun _ h => types_signature h, fun h => signed_signature h k, signature_eq _ _⟩

theorem toList_append_repr {x : String} {rest : List Char} (h : x.toList = '#' :: rest) (n : Nat) :
    (x ++ toString n).toList = '#' :: (rest ++ (toString n).toList) := by
  rw [String.toList_append, h, List.cons_append]

theorem grows_newTemp (b : FunctionBuilder) {x : String} {rest : List Char}
    (hx : x.toList = '#' :: rest) : b.Grows (b.newTemp x).2 :=
  (b.grows_newLabel x).trans
    (FunctionBuilder.grows_addLocal _ (toList_append_repr hx b.nextLabel))

/-! ### Names that lead somewhere -/

/-- Whether the names of an instruction without control flow lead somewhere. -/
def Resolves (m : Code.Module) (f : Code.Func) : Instr → Prop
  | .localGet x | .localSet x => x ∈ f.params ++ f.locals
  | .globalGet x | .globalSet x => x ∈ m.globals.map (·.name)
  | .call g => g ∈ m.functionNames
  | .callIndirect t => (m.type? t).isSome = true
  | .const _ | .load _ | .store _ | .binary _ | .eqz | .drop | .ret => True
  | _ => False

theorem slot_eq_ok {f : Code.Func} {x : String} (h : x ∈ f.params ++ f.locals) (m : Code.Module) :
    f.slot x = .ok ((m.names f).slot x) := by
  obtain ⟨i, hi, -⟩ := lastIndex?_of_mem h
  simp [Code.Func.slot, Code.Module.names, Names.slot, hi]

theorem globalIndex_eq_ok {m : Code.Module} {x : String} (h : x ∈ m.globals.map (·.name))
    (f : Code.Func) : m.globalIndex x = .ok ((m.names f).global x) := by
  obtain ⟨i, hi, -⟩ := lastIndex?_of_mem h
  simp [Code.Module.globalIndex, Code.Module.names, hi]

theorem functionIndex_eq_ok {m : Code.Module} {x : String} (h : x ∈ m.functionNames)
    (f : Code.Func) : m.functionIndex x = .ok ((m.names f).function x) := by
  obtain ⟨i, hi, -⟩ := lastIndex?_of_mem h
  simp [Code.Module.functionIndex, Code.Module.names, hi]

theorem link_callIndirect {m : Code.Module} {f : Code.Func} {x : String}
    (h : (m.type? x).isSome = true) (l : LinkState) :
    l.link m f (.callIndirect x) = .ok (l.push (.callIndirect ((m.names f).arity x))) := by
  obtain ⟨u, hu⟩ := Option.isSome_iff_exists.1 h
  have harity : (m.names f).arity x = u.params := by
    simp [Code.Module.names, hu]
  rw [LinkState.link, hu, harity]
  rfl

theorem link_of_resolves {m : Code.Module} {f : Code.Func} {i : Instr} (h : Resolves m f i)
    (l : LinkState) : l.link m f i = .ok (l.push ((m.names f).op i)) := by
  cases i with
  | localGet x | localSet x =>
    rw [LinkState.link, slot_eq_ok h m]
    rfl
  | globalGet x | globalSet x =>
    rw [LinkState.link, globalIndex_eq_ok h f]
    rfl
  | call g =>
    rw [LinkState.link, functionIndex_eq_ok h f]
    rfl
  | callIndirect t => exact link_callIndirect h l
  | const n | load n | store n | binary op | eqz | drop | ret => rfl
  | unreachable | block l | loop l | ifNonzero | orElse | endRegion | br l | brIf l => exact h.elim

theorem declares_of_resolves {m : Code.Module} {f : Code.Func} {i : Instr}
    (h : Resolves m f i) : (m.names f).Declares i := by
  cases i with
  | localGet x | localSet x => exact h
  | _ => trivial

theorem linkAll_of_resolves {m : Code.Module} {f : Code.Func} {is : List Instr}
    (h : ∀ i ∈ is, Resolves m f i) (l : LinkState) :
    is.foldlM (LinkState.link m f) l
      = .ok ⟨l.code ++ (is.map (m.names f).op).toArray, l.regions⟩ := by
  induction is generalizing l with
  | nil =>
    simp
    rfl
  | cons i is ih =>
    rw [List.foldlM_cons, link_of_resolves (h i List.mem_cons_self)]
    refine (ih (fun j hj => h j (List.mem_cons_of_mem _ hj)) _).trans ?_
    simp [LinkState.push]

end ObjLang.Emit
