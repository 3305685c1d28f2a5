import ObjLang.Proofs.Emit.Link
import ObjLang.Proofs.Tree.Words

/-!
# ObjLang.Proofs.Emit.Slots — the slots of variables

Variables of a source text have names that the generator does not make up.  In a generated function
different names have different slots, the parameters the first ones.
-/

namespace ObjLang

open Check Check.Facts

/-! ### Words -/

namespace FunDef

theorem Binds.words {d d' : FunDef} (h : d.Binds d') (hd : d.Words) : d'.Words where
  parameters := by
    rw [h.parameters]
    exact hd.parameters
  definitions := by
    rw [h.definitions]
    exact hd.definitions
  names := by
    rw [h.names]
    exact hd.names

theorem Words.param {d : FunDef} (h : d.Words) {q : TypedName} (hq : q ∈ d.params) :
    Word q.name.name := by
  cases d
  exact h.parameters q (List.mem_append_left _ hq)

theorem Words.name {d : FunDef} (h : d.Words) : Word d.name.name := by
  refine h.names _ (List.mem_map_of_mem (f := fun e : FunDef => e.name.name) ?_)
  rw [FunDef.all_eq]
  exact List.mem_cons_self

theorem Words.var {d : FunDef} (h : d.Words) {q : VarDef} (hq : q ∈ d.vars) :
    Word q.var.name.name := by
  cases d
  exact h.definitions (q.var, q.init) (List.mem_append_left _
    (List.mem_map_of_mem (f := fun q : VarDef => (q.var, q.init)) hq))

end FunDef

namespace CheckedOk

variable {p : Program} {c : CheckedProgram} {s : State}

theorem global_word (h : CheckedOk p c s) (hp : p.Words) {d : VarDef}
    (hd : d ∈ c.program.vars) : Word d.var.name.name := by
  obtain ⟨d', hd', heq, -⟩ := exists_of_forall₂ h.sameVars.flip hd
  rw [heq]
  exact hp.vars d' hd'

theorem nest_words (h : CheckedOk p c s) (hp : p.Words) {outer : List FunDef} {d : FunDef}
    (hd : c.Nest outer d) : d.Words := by
  induction hd with
  | method hk hm =>
    obtain ⟨k', hk', -, -, hms⟩ := exists_of_forall₂ h.sameClasses.flip hk
    obtain ⟨m', hm', hb⟩ := exists_of_forall₂ hms.flip hm
    exact hb.words ((hp.classes k' hk').methods m' hm')
  | function hd =>
    obtain ⟨d', hd', hb⟩ := exists_of_forall₂ h.sameFunctions.flip hd
    exact hb.words (hp.functions d' hd')
  | @nested outer e d _ hd ih =>
    cases e
    refine ⟨fun q hq => ih.parameters q ?_, fun q hq => ih.definitions q ?_, fun x hx => ?_⟩
    · exact List.mem_append_right _ (FunDef.mem_parametersOf.2 ⟨d, hd, hq⟩)
    · exact List.mem_append_right _ (FunDef.mem_definitionsOf.2 ⟨d, hd, hq⟩)
    · obtain ⟨e, he, rfl⟩ := List.mem_map.1 hx
      refine ih.names _ (List.mem_map_of_mem (f := fun e : FunDef => e.name.name) ?_)
      exact List.mem_cons_of_mem _ (FunDef.mem_allOf.2 ⟨d, hd, he⟩)

/-- A name that some function around a function declares is a word. -/
theorem nearest_word (h : CheckedOk p c s) (hp : p.Words) {outer : List FunDef} {d : FunDef}
    (hd : c.Nest outer d) {x : String} {v : VarId}
    (hx : nearest c.module x (outer.map c.level) = some v) : Word x := by
  induction hd with
  | method | function => cases hx
  | @nested outer e d he _ ih =>
    simp only [List.map_cons, nearest] at hx
    split at hx
    · next w hw =>
      have hmem := Bindings.mem_of_lookup hw
      have hwords := h.nest_words hp he
      simp only [CheckedProgram.level, Level.ofFunction, List.mem_append] at hmem
      obtain hmem | hmem := hmem
      · obtain ⟨q, hq, rfl⟩ := List.mem_map.1 (List.of_mem_zip hmem).1
        exact hwords.param hq
      · obtain ⟨q, hq, rfl⟩ := List.mem_map.1 (List.of_mem_zip hmem).1
        exact hwords.var hq
    · split at hx
      · obtain ⟨q, hq, heq⟩ := List.mem_filterMap.1 (Bindings.mem_of_lookup hx)
        obtain ⟨w, -, hw⟩ := Option.map_eq_some_iff.1 heq
        cases hw
        exact h.global_word hp hq
      · exact ih hx

/-- The variables of a function are words. -/
theorem own_words (h : CheckedOk p c s) (hp : p.Words) {outer : List FunDef} {d : FunDef}
    (hd : c.Nest outer d) {id : FunId} {f : Function}
    (hf : (s.facts c.classes).FunctionOk (outer.map c.level) d id f) :
    ∀ x ∈ Emit.varNames c (f.params ++ f.captures.aliases ++ f.locals), Word x := by
  have hwords := h.nest_words hp hd
  intro x hx
  rw [Emit.varNames_eq h hf, List.mem_append, List.mem_append] at hx
  obtain (hx | hx) | hx := hx
  · obtain ⟨q, hq, rfl⟩ := List.mem_map.1 hx
    exact hwords.param hq
  · obtain ⟨k, hk, rfl⟩ := List.mem_map.1 hx
    obtain ⟨-, hk⟩ := hf.captures k hk
    exact h.nearest_word hp hd ((h.nearest_module _ _).trans hk.symm)
  · obtain ⟨q, hq, rfl⟩ := List.mem_map.1 hx
    exact hwords.var hq

end CheckedOk

/-! ### Slots -/

namespace Names

variable {N : Names} {x y : String}

theorem slot_eq (hnd : N.frame.Nodup) {i : Nat} (h : N.frame[i]? = some x) : N.slot x = i := by
  rw [slot, lastIndex?_of_nodup hnd h, Option.getD_some]

theorem getElem?_slot (h : x ∈ N.frame) : N.frame[N.slot x]? = some x := by
  obtain ⟨i, hi, hx⟩ := lastIndex?_of_mem h
  rw [slot, hi, Option.getD_some, hx]

theorem slot_lt (h : x ∈ N.frame) : N.slot x < N.frame.length :=
  (List.getElem?_eq_some_iff.1 (getElem?_slot h)).1

theorem slot_inj (hx : x ∈ N.frame) (hy : y ∈ N.frame) (h : N.slot x = N.slot y) : x = y := by
  have hx' := getElem?_slot hx
  rw [h, getElem?_slot hy] at hx'
  exact (Option.some.inj hx').symm

end Names

end ObjLang
