import ObjLang.Proofs.Machine.Moves
import ObjLang.Proofs.Machine.Visits

/-!
# ObjLang.Proofs.Machine.Active — the calls under way from state to state

A call keeps its record while it is under way, and only the innermost one moves.  Past its prologue
no slot of it changes that holds a cell.  A nested function runs directly above the function around
it, so that the owner of a captured variable is found by going down as many calls as there are
functions in between.
-/

namespace ObjLang

open Check Check.Facts

namespace Trace

/-- The calls under way with their frames, innermost first. -/
def active (s : Trace) : List (Call × Frame) := s.calls.zip s.thread.frames

/-- A call under way, counted from the innermost one, is one of a definition. -/
structure At (c : CheckedProgram) (m : Code.Module) (s : Trace) (i : Nat) (d : FunDef) (a : Call)
    (F : Frame) : Prop where
  active : s.active[i]? = some (a, F)
  function : a.function = m.index (c.emitted d)

/-- The owner of a variable that lives in a cell: from the call with a number on down, the call with
the frame `G` is one of the definition that the variable belongs to, and past its prologue. -/
def Owns (c : CheckedProgram) (m : Code.Module) (s : Trace) (i : Nat) (ds : List FunDef)
    (v : VarId) (b : Call) (G : Frame) : Prop :=
  ∃ t outer e, ds[t]? = some e ∧ c.Nest outer e ∧ s.At c m (i + t) e b G ∧
    c.prologue e ≤ G.position ∧ v ∈ c.boxed e

/-! ### Steps -/

section

variable {p : LinkedModule} {maxDepth : Nat} {s s' u : Trace} {a b : Call} {F F' G : Frame}

theorem active_eq (s : Trace) : s.active = s.calls.zip (s.thread.frame :: s.thread.callers) := rfl

theorem active_of_calls {as : List Call} (h : s.calls = a :: as) :
    s.active = (a, s.thread.frame) :: as.zip s.thread.callers := by
  rw [active_eq, h, List.zip_cons_cons]

theorem mem_active_of_calls {as : List Call} (h : s.calls = a :: as) :
    (a, s.thread.frame) ∈ s.active :=
  active_of_calls h ▸ List.mem_cons_self

theorem At.head {c : CheckedProgram} {m : Code.Module} {d : FunDef} (h : s.At c m 0 d a F) :
    s.calls.head? = some a := by
  rw [List.head?_eq_getElem?]
  exact (List.getElem?_zip_eq_some.1 h.active).1

theorem mem_calls_of_active (h : (a, F) ∈ s.active) : a ∈ s.calls := (List.of_mem_zip h).1

theorem Numbered.nodup (hn : s.Numbered) : (s.calls.map Call.number).Nodup :=
  hn.1.imp fun hlt => Nat.ne_of_gt hlt

/-- A call under way has one frame. -/
theorem Numbered.frame_unique (hn : s.Numbered) (h : (a, F) ∈ s.active) (h' : (a, F') ∈ s.active) :
    F = F' := by
  have hnodup : s.calls.Nodup := hn.nodup.of_map _
  obtain ⟨i, hi⟩ := List.mem_iff_getElem?.1 h
  obtain ⟨j, hj⟩ := List.mem_iff_getElem?.1 h'
  obtain ⟨hi₁, hi₂⟩ := List.getElem?_zip_eq_some.1 hi
  obtain ⟨hj₁, hj₂⟩ := List.getElem?_zip_eq_some.1 hj
  obtain ⟨hlt, hget⟩ := List.getElem?_eq_some_iff.1 hi₁
  obtain ⟨hlt', hget'⟩ := List.getElem?_eq_some_iff.1 hj₁
  obtain rfl : i = j := (hnodup.getElem_inj_iff).1 (hget.trans hget'.symm)
  exact Option.some.inj (hi₂.symm.trans hj₂)

section

variable {t : Thread} {as : List Call} {Fs : List Frame}

theorem active_of_on (hcalls : s.calls = a :: as) (h : t.callers = s.thread.callers) :
    (s.advance p t).active = (a, t.frame) :: as.zip s.thread.callers := by
  have hsame : (s.advance p t).calls = a :: as := by
    simp only [advance, h, Nat.lt_irrefl, if_false, hcalls]
  rw [active_of_calls hsame]
  exact congrArg (fun l => _ :: as.zip l) h

theorem active_of_enter (hcalls : s.calls = a :: as) (h : t.callers = G :: s.thread.callers) :
    (s.advance p t).active = (⟨s.thread.callee p, s.begun, s.heap⟩, t.frame) :: (a, G) ::
      as.zip s.thread.callers := by
  have hmore : (s.advance p t).calls = ⟨s.thread.callee p, s.begun, s.heap⟩ :: a :: as := by
    simp only [advance, h, List.length_cons, Nat.lt_succ_self, if_true, hcalls]
  rw [active_of_calls hmore]
  exact congrArg (fun l => _ :: (a :: as).zip l) h

theorem active_of_leave (hcalls : s.calls = a :: as) (h : s.thread.callers = G :: Fs)
    (hrest : t.callers = Fs) : (s.advance p t).active = as.zip (t.frame :: Fs) := by
  have hless : (s.advance p t).calls = as := by
    simp only [advance, h, hrest, List.length_cons, hcalls, List.tail_cons,
      Nat.lt_succ_self, if_true, if_neg (Nat.not_lt.2 (Nat.le_succ Fs.length))]
  rw [active_eq, hless]
  exact congrArg (fun l => as.zip (t.frame :: l)) hrest

end

/-- What a step does to the calls under way: the innermost one goes on, or begins another one, or
ends. -/
theorem next_cases (h : s.next p maxDepth = some s') {as : List Call} (hcalls : s.calls = a :: as) :
    (∃ F, s'.active = (a, F) :: as.zip s.thread.callers ∧ s.thread.frame.Goes F) ∨
      (∃ F G, s'.active = (⟨s.thread.callee p, s.begun, s.heap⟩, F) :: (a, G) ::
          as.zip s.thread.callers ∧ s.thread.frame.Goes G) ∨
      ∃ G Fs G', s.thread.callers = G :: Fs ∧ s'.active = as.zip (G' :: Fs) ∧ G.Like G' := by
  obtain ⟨t, ht, rfl⟩ := next_eq_some.1 h
  obtain ⟨hcallers, hgoes⟩ | ⟨G, hgoes, hcallers⟩ | ⟨G, Fs, hcallers, hrest, hlike⟩ :=
    Thread.step_cases ht
  · exact .inl ⟨t.frame, active_of_on hcalls hcallers, hgoes⟩
  · exact .inr (.inl ⟨t.frame, G, active_of_enter hcalls hcallers, hgoes⟩)
  · exact .inr (.inr ⟨G, Fs, t.frame, hcallers, active_of_leave hcalls hcallers hrest, hlike⟩)

/-- A call that is under way after a step began with it, or was so before: then it stays as it is,
or is the innermost one. -/
theorem active_of_next (h : s.next p maxDepth = some s') {as : List Call} (hcalls : s.calls = b :: as)
    (ha : (a, F') ∈ s'.active) : a.number = s.begun ∨ ∃ F, (a, F) ∈ s.active ∧
      (F.Like F' ∨ (a = b ∧ F = s.thread.frame ∧ F.Goes F')) := by
  rw [active_of_calls hcalls]
  obtain ⟨G, hactive, hgoes⟩ | ⟨F₀, G, hactive, hgoes⟩ | ⟨G, Fs, G', hcallers, hactive, hlike⟩ :=
    next_cases h hcalls
  · rw [hactive] at ha
    obtain heq | ha := List.mem_cons.1 ha
    · cases heq
      exact .inr ⟨_, List.mem_cons_self, .inr ⟨rfl, rfl, hgoes⟩⟩
    · exact .inr ⟨F', List.mem_cons_of_mem _ ha, .inl ⟨rfl, rfl, rfl⟩⟩
  · rw [hactive] at ha
    obtain heq | ha := List.mem_cons.1 ha
    · cases heq
      exact .inl rfl
    obtain heq | ha := List.mem_cons.1 ha
    · cases heq
      exact .inr ⟨_, List.mem_cons_self, .inr ⟨rfl, rfl, hgoes⟩⟩
    · exact .inr ⟨F', List.mem_cons_of_mem _ ha, .inl ⟨rfl, rfl, rfl⟩⟩
  · rw [hactive] at ha
    rw [hcallers]
    cases as with
    | nil => cases ha
    | cons c as =>
      obtain heq | ha := List.mem_cons.1 ha
      · cases heq
        exact .inr ⟨G, List.mem_cons_of_mem _ List.mem_cons_self, .inl hlike⟩
      · exact .inr ⟨F', List.mem_cons_of_mem _ (List.mem_cons_of_mem _ ha), .inl ⟨rfl, rfl, rfl⟩⟩

/-- A run goes on from its first state, if it goes on at all. -/
theorem Reaches.cases_head (h : Reaches p maxDepth s s') :
    s = s' ∨ ∃ u, s.next p maxDepth = some u ∧ Reaches p maxDepth u s' := by
  induction h with
  | refl => exact .inl rfl
  | step _ hv ih =>
    obtain rfl | ⟨u, hu, hr⟩ := ih
    · exact .inr ⟨_, hv, .refl⟩
    · exact .inr ⟨u, hu, hr.step hv⟩

/-- Of two states of a run one comes after the other. -/
theorem Reaches.total (h : Reaches p maxDepth s u) (h' : Reaches p maxDepth s s') :
    Reaches p maxDepth u s' ∨ Reaches p maxDepth s' u := by
  induction h' with
  | refl => exact .inr h
  | step _ hv ih =>
    obtain hr | hr := ih
    · exact .inl (hr.step hv)
    · obtain rfl | ⟨v, hv', hr⟩ := hr.cases_head
      · exact .inl (.step .refl hv)
      · cases hv.symm.trans hv'
        exact .inr hr

end

end Trace

namespace CheckedOk

variable {p : Program} {c : CheckedProgram} {t₀ : State} {outer : List FunDef} {d e : FunDef}

/-- The function around a nested one. -/
theorem parent_eq (h : CheckedOk p c t₀) (hd : c.Nest (e :: outer) d) :
    ∃ q, e.id = some q ∧ (c.record d).parent = some q := by
  obtain ⟨id, -, -, hf, -⟩ := h.record_ok hd
  cases hd with
  | nested he _ =>
    obtain ⟨q, hq, -, -, hlevel⟩ := h.record_ok he
    refine ⟨q, hq, ?_⟩
    have hid : (c.level e).id = q := by rw [hlevel]; rfl
    rw [hf.parent]
    exact congrArg some hid

end CheckedOk

theorem CheckedProgram.Nest.outer_nest {c : CheckedProgram} {outer : List FunDef} {d e : FunDef}
    (h : c.Nest (e :: outer) d) : c.Nest outer e := by
  cases h with
  | nested he _ => exact he

namespace Setting

variable {w : Setting} {p : Program} {o : Options} {t₀ : State} {s s' u : Trace} {i hi : Nat}
  {a b : Trace.Call} {F F' G : Frame} {Fs : List Frame} {as : List Trace.Call} {d e : FunDef}
  {outer : List FunDef} {v : VarId}

/-! ### The calls under way in one state -/

/-- The calls from one on. -/
theorem Stacked.at_active (h : w.Stacked hi Fs as) (hi' : (as.zip Fs)[i]? = some (a, F)) :
    ∃ lo Gs bs, as.drop i = a :: bs ∧ Fs.drop i = F :: Gs ∧ w.Stacked lo (F :: Gs) (a :: bs) ∧
      lo ≤ hi ∧ ∀ j < i, ∀ b G, (as.zip Fs)[j]? = some (b, G) → lo ≤ b.start := by
  induction i generalizing hi Fs as with
  | zero =>
    obtain ⟨has, hFs⟩ := List.getElem?_zip_eq_some.1 hi'
    cases as with
    | nil => cases has
    | cons _ as =>
      cases Fs with
      | nil => cases hFs
      | cons _ Fs =>
        cases has
        cases hFs
        exact ⟨hi, Fs, as, rfl, rfl, h, Nat.le_refl _, fun j hj => absurd hj (Nat.not_lt_zero j)⟩
  | succ i ih =>
    have hrest : ∀ {c : Trace.Call} {H : Frame} {as' : List Trace.Call} {Fs' : List Frame},
        as = c :: as' → Fs = H :: Fs' → c.start ≤ hi → w.Stacked c.start Fs' as' →
        ∃ lo Gs bs, as.drop (i + 1) = a :: bs ∧ Fs.drop (i + 1) = F :: Gs ∧
          w.Stacked lo (F :: Gs) (a :: bs) ∧ lo ≤ hi ∧
          ∀ j < i + 1, ∀ b G, (as.zip Fs)[j]? = some (b, G) → lo ≤ b.start := by
      rintro c H as' Fs' rfl rfl hc hst
      obtain ⟨lo, Gs, bs, has, hFs, hst, hle, hall⟩ := ih hst hi'
      refine ⟨lo, Gs, bs, has, hFs, hst, Nat.le_trans hle hc, fun j hj b G hb => ?_⟩
      cases j with
      | zero =>
        cases hb
        exact hle
      | succ j => exact hall j (Nat.lt_of_succ_lt_succ hj) b G hb
    cases h with
    | entry => cases hi'
    | helper _ _ ha hst => exact hrest rfl rfl ha hst
    | body _ _ _ _ _ ha hst => exact hrest rfl rfl ha hst

/-- What holds of a call of a definition: it rests on the call below it, and its cells lie below a
place where the heap pointer was before any call above it began. -/
theorem Sound.at_call (hs : w.Sound s) (hw : Compiled p w.program t₀ o w.module w.linked)
    (hd : w.program.Nest outer d) (hat : s.At w.program w.module i d a F) :
    ∃ hi b G, s.active[i + 1]? = some (b, G) ∧ w.RestsOn hi d F a G b ∧ a.start ≤ hi ∧
      hi ≤ s.heap ∧ ∀ j < i, ∀ b' G', s.active[j]? = some (b', G') → hi ≤ b'.start := by
  obtain ⟨lo, Gs, bs, has, hFs, hst, hle, hall⟩ := hs.stacked.at_active hat.active
  obtain ⟨G, Gs', b, bs', rfl, rfl, hrests, -⟩ := hst.restsOn hw hd hat.function
  refine ⟨lo, b, G, ?_, hrests, hst.start_le, hle, hall⟩
  refine List.getElem?_zip_eq_some.2 ⟨?_, ?_⟩
  · rw [← List.getElem?_drop, has]
    rfl
  · rw [← List.getElem?_drop, hFs]
    rfl

/-- A nested function runs directly above the function around it, at the place of its call. -/
theorem Sound.above (hs : w.Sound s) (hw : Compiled p w.program t₀ o w.module w.linked)
    (hd : w.program.Nest (e :: outer) d) (hat : s.At w.program w.module i d a F) :
    ∃ b G, s.At w.program w.module (i + 1) e b G ∧ w.program.prologue e ≤ G.position ∧
      w.program.Passed w.module d F e G := by
  obtain ⟨hi, b, G, hactive, hrests, -⟩ := hs.at_call hw hd hat
  obtain ⟨q, hq, hparent⟩ := hw.checked.parent_eq hd
  obtain ⟨outer', e', he', hq', hfun, hpassed⟩ := hrests.links q hparent
  have heq : w.program.emitted e = w.program.emitted e' := by
    rw [CheckedProgram.emitted, CheckedProgram.emitted, hq, hq']
  obtain rfl := hw.checked.emitted_inj hw.words hd.outer_nest he' heq
  exact ⟨b, G, ⟨hactive, hfun⟩, hrests.waiting.past _ _ he' hfun, hpassed⟩

/-- A variable of a definition that is no alias lives in a cell of its own, if it lives in a
cell. -/
theorem mem_boxed (hw : Compiled p w.program t₀ o w.module w.linked) (hd : w.program.Nest outer d)
    (hv : v ∈ (w.program.record d).params ++ (w.program.record d).locals)
    (hind : (w.program.var v).isIndirect = true) : v ∈ w.program.boxed d := by
  refine List.mem_filter.2 ⟨hv, ?_⟩
  obtain ⟨id, -, -, hf, -⟩ := hw.checked.record_ok hd
  obtain ⟨t, ht⟩ : ∃ t, (w.program.var v).ty = .plain t := by
    obtain hv | hv := List.mem_append.1 hv
    · have hfst : ((w.program.record d).params.zip (w.program.record d).paramTypes).map Prod.fst
          = (w.program.record d).params := List.map_fst_zip (Nat.le_of_eq hf.params_length)
      rw [← hfst] at hv
      obtain ⟨vt, hvt, rfl⟩ := List.mem_map.1 hv
      obtain ⟨q, -, r, hr, -, hty, -⟩ := exists_of_forall₂ hf.params.flip hvt
      exact ⟨vt.2, Emit.var_eq hw.checked hr ▸ hty⟩
    · obtain ⟨q, -, -, r, t, hr, -, hty, -⟩ := exists_of_forall₂ hf.locals.flip hv
      exact ⟨t, Emit.var_eq hw.checked hr ▸ hty⟩
  rw [Variable.isIndirect, ht] at hind
  exact hind

/-- A variable of a definition that is no alias stands for itself. -/
theorem home_own (hw : Compiled p w.program t₀ o w.module w.linked) (hd : w.program.Nest outer d)
    (hv : v ∈ (w.program.record d).params ++ (w.program.record d).locals) :
    w.program.vars.home v = v :=
  Variables.home_of_not_capture (hw.own_var hd hv)

/-- A capture holds what the slot of the captured variable holds, in the call that owns it. -/
theorem Sound.captured (hs : w.Sound s) (hw : Compiled p w.program t₀ o w.module w.linked)
    (hd : w.program.Nest outer d) (hat : s.At w.program w.module i d a F) {k : Capture}
    (hk : k ∈ (w.program.record d).captures) :
    ∃ b G, s.Owns w.program w.module (i + 1) outer (w.program.vars.home k.inner) b G ∧
      ∃ x, F.locals[w.program.slot k.inner]? = some x ∧
        G.locals[w.program.slot (w.program.vars.home k.inner)]? = some x := by
  induction outer generalizing i d a F k with
  | nil =>
    rw [hw.checked.captures_nil hd] at hk
    cases hk
  | cons e outer ih =>
    obtain ⟨b, G, hatG, hpast, g, -, -, _, _, _, _, vs, hpassed⟩ := hs.above hw hd hat
    obtain ⟨v, -, hv, hind, hhome, x, hx, hxG⟩ := exists_of_forall₂ hpassed.cells.flip hk
    have he := hd.outer_nest
    cases hcap : (w.program.var v).isCapture with
    | false =>
      have hown := hw.mem_own he hv hcap
      rw [← hhome, home_own hw he hown]
      exact ⟨b, G, ⟨0, outer, e, rfl, he, hatG, hpast, mem_boxed hw he hown hind⟩, x, hx, hxG⟩
    | true =>
      obtain ⟨k', hk', rfl⟩ := List.mem_map.1 (hw.mem_aliases he hv hcap)
      obtain ⟨b', G', ⟨t, outer', e', ht, he', hat', hrest⟩, y, hy, hyG'⟩ := ih he hatG hk'
      obtain rfl := Option.some.inj (hxG.symm.trans hy)
      rw [← hhome]
      refine ⟨b', G', ⟨t + 1, outer', e', ht, he', ?_, hrest⟩, x, hx, hyG'⟩
      rwa [Nat.add_right_comm (i + 1) 1 t] at hat'

/-! ### Slots that keep their words -/

/-- A call past its prologue stays so, and its slots keep their cells. -/
structure Keeps (w : Setting) (d : FunDef) (F F' : Frame) : Prop where
  past : w.program.prologue d ≤ F'.position
  slots : ∀ v ∈ (w.program.record d).slots, (w.program.var v).isIndirect = true →
    F'.locals[w.program.slot v]? = F.locals[w.program.slot v]?

theorem Keeps.trans (h : w.Keeps d F F') (h' : w.Keeps d F' G) : w.Keeps d F G :=
  ⟨h'.past, fun v hv hi => (h'.slots v hv hi).trans (h.slots v hv hi)⟩

theorem Keeps.of_like (hpast : w.program.prologue d ≤ F.position) (h : F.Like F') :
    w.Keeps d F F' :=
  ⟨h.position ▸ hpast, fun _ _ _ => by rw [h.locals]⟩

/-- The innermost call keeps its cells in a step. -/
theorem Sound.keeps_goes (hs : w.Sound s) (hd : w.program.Nest outer d)
    (ha : s.calls.head? = some a) (hfun : a.function = w.module.index (w.program.emitted d))
    (hpast : w.program.prologue d ≤ s.thread.frame.position) (h : s.thread.frame.Goes F') :
    w.Keeps d s.thread.frame F' := by
  cases h with
  | on _ hlocals hpos => exact ⟨by omega, fun _ _ _ => by rw [hlocals]⟩
  | set hop _ hlocals hpos =>
    refine ⟨by omega, fun v hv hind => ?_⟩
    have hspares := hs.op _ hop a ha outer d hd hfun hpast v hv hind
    rw [hlocals]
    exact Array.getElem?_setIfInBounds_ne hspares
  | jump hop hjump _ hlocals =>
    refine ⟨?_, fun _ _ _ => by rw [hlocals]⟩
    obtain rfl | rfl | rfl := hjump
    · exact hs.op _ hop a ha outer d hd hfun hpast
    · exact hs.op _ hop a ha outer d hd hfun hpast
    · exact hs.op _ hop a ha outer d hd hfun hpast

/-- A call keeps its cells as long as it is under way. -/
theorem keeps (hall : ∀ u, Trace.Reaches w.linked w.maxDepth s u → w.Sound u) (hn : s.Numbered)
    (h : Trace.Reaches w.linked w.maxDepth s s') (hd : w.program.Nest outer d)
    (hfun : a.function = w.module.index (w.program.emitted d))
    (hpast : w.program.prologue d ≤ F.position) (ha : (a, F) ∈ s.active)
    (ha' : (a, F') ∈ s'.active) : w.Keeps d F F' := by
  induction h generalizing F' with
  | refl =>
    obtain rfl := hn.frame_unique ha ha'
    exact .of_like hpast ⟨rfl, rfl, rfl⟩
  | @step u v hu hv ih =>
    have hsound := hall u hu
    obtain ⟨b, bs, hcalls⟩ := hsound.stacked.exists_call
    have hlt := hn.2 a (Trace.mem_calls_of_active ha)
    have hle := hu.begun_le
    obtain hnew | ⟨G, hG, hlike | ⟨rfl, rfl, hgoes⟩⟩ := Trace.active_of_next hv hcalls ha'
    · omega
    · exact (ih hG).trans (.of_like (ih hG).past hlike)
    · exact (ih hG).trans (hsound.keeps_goes hd (by rw [hcalls]; rfl) hfun (ih hG).past hgoes)

end Setting

end ObjLang
