import ObjLang.Proofs.Machine.Active

/-!
# ObjLang.Proofs.Machine.Cells — the cells of the calls of a run

A call of a definition gets its cells in its prologue and keeps them.  `Origin` says where they are,
in the first state in which the call is past its prologue; whatever began later has its cells
behind them.
-/

namespace ObjLang

open Check Check.Facts

namespace Trace

variable {s : Trace} {i j : Nat} {a b : Call} {F G : Frame}

/-- The call with a number is under way, is one of a definition, and is past its prologue. -/
def Opened (c : CheckedProgram) (m : Code.Module) (s : Trace) (n : Nat) : Prop :=
  ∃ i outer d a F, c.Nest outer d ∧ s.At c m i d a F ∧ a.number = n ∧ c.prologue d ≤ F.position

/-- The calls further in have the higher numbers. -/
theorem Numbered.lt_iff (hn : s.Numbered) (ha : s.active[i]? = some (a, F))
    (hb : s.active[j]? = some (b, G)) : a.number < b.number ↔ j < i := by
  have hlt : ∀ {i j : Nat} {a b : Call} {F G : Frame}, s.active[i]? = some (a, F) →
      s.active[j]? = some (b, G) → j < i → a.number < b.number := by
    intro i j a b F G ha hb hji
    obtain ⟨hi, hgeti⟩ := List.getElem?_eq_some_iff.1 (List.getElem?_zip_eq_some.1 ha).1
    obtain ⟨hj, hgetj⟩ := List.getElem?_eq_some_iff.1 (List.getElem?_zip_eq_some.1 hb).1
    have hgt := List.pairwise_iff_getElem.1 hn.1 j i (by simpa using hj) (by simpa using hi) hji
    simpa only [List.getElem_map, hgeti, hgetj] using hgt
  refine ⟨fun h => ?_, hlt ha hb⟩
  by_contra hle
  obtain hij | rfl := Nat.lt_or_eq_of_le (Nat.not_lt.1 hle)
  · exact Nat.lt_asymm h (hlt hb ha hij)
  · cases ha.symm.trans hb
    exact Nat.lt_irrefl _ h

end Trace

namespace LinkedModule

variable {L : LinkedModule} {k : Config} {s s' : Trace} {a b : Trace.Call}

theorem Visits.numbered (h : L.Visits k s) : s.Numbered := by
  obtain ⟨-, F, -, hs⟩ := h
  exact hs.numbered (Trace.numbered_start _ _)

/-- Of two visited states one comes after the other. -/
theorem Visits.total (h : L.Visits k s) (h' : L.Visits k s') :
    Trace.Reaches L k.maxCallDepth s s' ∨ Trace.Reaches L k.maxCallDepth s' s := by
  obtain ⟨-, F, hF, hs⟩ := h
  obtain ⟨-, F', hF', hs'⟩ := h'
  cases hF.symm.trans hF'
  exact hs.total hs'

end LinkedModule

namespace Setting

variable {w : Setting} {p : Program} {o : Options} {t₀ : State} {s : Trace} {i j hi : Nat}
  {a b : Trace.Call} {F G : Frame} {Fs : List Frame} {as : List Trace.Call} {d : FunDef}
  {outer : List FunDef}

/-- Below a call of a definition all calls are past their prologues. -/
theorem Stacked.waiting (h : w.Stacked hi (F :: Fs) (a :: as))
    (hne : a.function ≠ w.module.index Emit.allocName)
    (hne' : a.function ≠ w.module.index (methodTarget rootClass initMethod)) :
    ∀ bG ∈ as.zip Fs, w.Waiting bG.1 bG.2 := by
  induction as generalizing hi F Fs a with
  | nil => exact fun _ hb => absurd hb List.not_mem_nil
  | cons b as ih =>
    cases h with
    | helper hx hr =>
      obtain rfl | rfl := hx
      · exact absurd hr.1 hne
      · exact absurd hr.1 hne'
    | body _ _ _ hwaiting _ _ hst =>
      rintro bG hb
      obtain rfl | hb := List.mem_cons.1 hb
      · exact hwaiting
      · exact ih hst hwaiting.notAlloc hwaiting.notRoot bG hb

/-- A call below one of a definition is past its prologue. -/
theorem Sound.opened_below (hs : w.Sound s) (hw : Compiled p w.program t₀ o w.module w.linked)
    (hd : w.program.Nest outer d) (hat : s.At w.program w.module i d a F) {e : FunDef}
    {outer' : List FunDef} (he : w.program.Nest outer' e)
    (hate : s.At w.program w.module j e b G) (hij : i < j) :
    w.program.prologue e ≤ G.position := by
  obtain ⟨lo, Gs, bs, has, hFs, hst, -, -⟩ := hs.stacked.at_active hat.active
  have hne : ∀ x ∈ w.module.functionNames, w.program.emitted d ≠ x →
      a.function ≠ w.module.index x := fun x hx hne heq =>
    hne (Code.Module.index_inj (hw.emitted_mem hd) hx (hat.function.symm.trans heq))
  have hall := hst.waiting (hne _ hw.alloc_mem (hw.checked.emitted_ne_made hw.words hd
      (by decide : Emit.allocName.toList = '#' :: ['a', 'l', 'l', 'o', 'c'])))
    (hne _ hw.root_mem (hw.checked.emitted_ne_root hw.words hd))
  refine (hall (b, G) ?_).past _ _ he hate.function
  obtain ⟨hb, hG⟩ := List.getElem?_zip_eq_some.1 hate.active
  refine List.mem_of_getElem? (i := j - i - 1) (List.getElem?_zip_eq_some.2 ⟨?_, ?_⟩)
  · have hget : (s.calls.drop i)[j - i]? = some b := by
      rw [List.getElem?_drop, Nat.add_sub_cancel' (Nat.le_of_lt hij)]
      exact hb
    rw [has, show j - i = j - i - 1 + 1 by omega, List.getElem?_cons_succ] at hget
    exact hget
  · have hget : (s.thread.frames.drop i)[j - i]? = some G := by
      rw [List.getElem?_drop, Nat.add_sub_cancel' (Nat.le_of_lt hij)]
      exact hG
    rw [hFs, show j - i = j - i - 1 + 1 by omega, List.getElem?_cons_succ] at hget
    exact hget

/-- Every call under way has a frame. -/
theorem Sound.exists_active (hs : w.Sound s) (ha : a ∈ s.calls) : ∃ F, (a, F) ∈ s.active := by
  obtain ⟨i, hi⟩ := List.mem_iff_getElem?.1 ha
  have hlt := (List.getElem?_eq_some_iff.1 hi).1
  rw [← hs.stacked.code.length_eq] at hlt
  exact ⟨_, List.mem_of_getElem? (List.getElem?_zip_eq_some.2 ⟨hi, List.getElem?_eq_getElem hlt⟩)⟩

/-- The setting in which a module runs; if the options have no fault, it is claimed that the heap
lies in the memory. -/
def ofOptions (c : CheckedProgram) (m : Code.Module) (L : LinkedModule) (o : Options)
    (k : Config) : Setting :=
  .ofRun c m L o k (o.fault? = none)

end Setting

/-! ### Where the cells are -/

/-- The cells of a call of a definition, in a state `s₀` in which it is past its prologue, and none
before it.  They lie below the number `hi`, which is not above any place where a call further in
began. -/
structure Origin (c : CheckedProgram) (m : Code.Module) (L : LinkedModule) (o : Options)
    (k : Config) (d : FunDef) (a : Trace.Call) (cell : VarId → Nat) (s₀ : Trace) (F₀ : Frame)
    (hi : Nat) : Prop where
  visits : L.Visits k s₀
  first : ∀ s, L.Visits k s → s.Opened c m a.number → Trace.Reaches L k.maxCallDepth s₀ s
  function : a.function = m.index (c.emitted d)
  active : ∃ i : Nat, s₀.active[i]? = some (a, F₀) ∧
    ∀ j < i, ∀ (b : Trace.Call) (G : Frame), s₀.active[j]? = some (b, G) → hi ≤ b.start
  past : c.prologue d ≤ F₀.position
  cells : ∀ v ∈ c.boxed d, (Setting.ofOptions c m L o k).CellAt F₀ v (cell v) a.start hi
  apart : ∀ v ∈ c.boxed d, ∀ u ∈ c.boxed d, v ≠ u → cell v + 4 ≤ cell u ∨ cell u + 4 ≤ cell v
  heap : hi ≤ s₀.heap

namespace Compiled

variable {p : Program} {c : CheckedProgram} {t₀ : State} {o : Options} {m : Code.Module}
  {L : LinkedModule} {k : Config} {s s' s₀ : Trace} {i j hi : Nat} {a b : Trace.Call}
  {F F₀ G : Frame} {d e : FunDef} {outer outer' : List FunDef} {cell : VarId → Nat} {v : VarId}

theorem sound_of (h : Compiled p c t₀ o m L) (hs : L.Visits k s) :
    (Setting.ofOptions c m L o k).Sound s :=
  h.sound _ id hs

/-- A call past its prologue keeps its cells as long as it is under way. -/
theorem keeps (h : Compiled p c t₀ o m L) (hs : L.Visits k s)
    (hr : Trace.Reaches L k.maxCallDepth s s') (hd : c.Nest outer d)
    (hfun : a.function = m.index (c.emitted d)) (hpast : c.prologue d ≤ F.position)
    (ha : (a, F) ∈ s.active) (ha' : (a, G) ∈ s'.active) :
    (Setting.ofOptions c m L o k).Keeps d F G :=
  Setting.keeps (w := .ofOptions c m L o k) (fun _ hu => h.sound_of (hs.trans hu)) hs.numbered hr hd
    hfun hpast ha ha'

end Compiled

namespace Origin

variable {p : Program} {c : CheckedProgram} {t₀ : State} {o : Options} {m : Code.Module}
  {L : LinkedModule} {k : Config} {s s' s₀ : Trace} {i j hi : Nat} {a b : Trace.Call}
  {F F₀ G : Frame} {d e : FunDef} {outer outer' : List FunDef} {cell : VarId → Nat} {v : VarId}

/-- A call further in began behind the cells. -/
theorem le_start (ho : Origin c m L o k d a cell s₀ F₀ hi)
    (hr : Trace.Reaches L k.maxCallDepth s₀ s) (hb : b ∈ s.calls) (hlt : a.number < b.number)
    (h : Compiled p c t₀ o m L) : hi ≤ b.start := by
  obtain hmem | ⟨-, hle⟩ := hr.mem_calls hb
  · obtain ⟨i, hi, habove⟩ := ho.active
    obtain ⟨G, hG⟩ := (h.sound_of ho.visits).exists_active hmem
    obtain ⟨j, hj⟩ := List.mem_iff_getElem?.1 hG
    exact habove j ((ho.visits.numbered.lt_iff hi hj).1 hlt) b G hj
  · exact Nat.le_trans ho.heap hle

/-- In every state in which the call is past its prologue its slots hold its cells. -/
theorem slot (ho : Origin c m L o k d a cell s₀ F₀ hi) (h : Compiled p c t₀ o m L)
    (hs : L.Visits k s) (hd : c.Nest outer d) (hat : s.At c m i d a F)
    (hpast : c.prologue d ≤ F.position) (hv : v ∈ c.boxed d) :
    F.locals[c.slot v]? = some (Int32.ofNat (cell v)) := by
  have hr := ho.first s hs ⟨i, outer, d, a, F, hd, hat, rfl, hpast⟩
  obtain ⟨i₀, hi₀, -⟩ := ho.active
  obtain ⟨hmem, hind⟩ := Setting.isIndirect_of_boxed (w := .ofOptions c m L o k) hv
  exact ((h.keeps ho.visits hr hd ho.function ho.past (List.mem_of_getElem? hi₀)
    (List.mem_of_getElem? hat.active)).slots v hmem hind).trans (ho.cells v hv).slot

/-- Calls have cells apart, the one that began later behind those of the other. -/
theorem le_of_lt (ho : Origin c m L o k d a cell s₀ F₀ hi) (h : Compiled p c t₀ o m L)
    (hd : c.Nest outer d) (hs : L.Visits k s) (he : c.Nest outer' e) (hat : s.At c m j e b G)
    (hlt : a.number < b.number) : hi ≤ b.start := by
  have hb := Trace.mem_calls_of_active (List.mem_of_getElem? hat.active)
  obtain hr | hr := ho.visits.total hs
  · exact ho.le_start hr hb hlt h
  -- Before `s₀` the call is below the other one, and so past its prologue already.
  · obtain ⟨i₀, hi₀, -⟩ := ho.active
    have ha : a ∈ s.calls := by
      obtain hin | ⟨hle, -⟩ :=
        hr.mem_calls (Trace.mem_calls_of_active (List.mem_of_getElem? hi₀))
      · exact hin
      · have hbegun := hs.numbered.2 b hb
        omega
    obtain ⟨F, hF⟩ := (h.sound_of hs).exists_active ha
    obtain ⟨i, hi⟩ := List.mem_iff_getElem?.1 hF
    have hpast : c.prologue d ≤ F.position :=
      (h.sound_of hs).opened_below (w := .ofOptions c m L o k) h he hat hd ⟨hi, ho.function⟩
        ((hs.numbered.lt_iff hi hat.active).1 hlt)
    exact ho.le_start (ho.first s hs ⟨i, outer, d, a, F, hd, ⟨hi, ho.function⟩, rfl, hpast⟩) hb hlt h

end Origin

end ObjLang
