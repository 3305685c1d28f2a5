import ObjLang.Proofs.Check.State

/-!
# ObjLang.Proofs.Check.Alias — making an alias keeps the invariant

An alias is made in three places: where a name is read that only a function around declares, where
a name is declared `nonlocal`, and where a capture of a nested function passes through.  In all of
them the name is not yet bound in the innermost scope, and its origin stands for the nearest
declaration outside; that is all that the invariant needs.
-/

namespace ObjLang.Check

open Facts

variable {classes : ClassTable} {s : State}

/-- The record of an alias. -/
def aliasRecord (s : State) (x : String) (origin : VarId) (writable : Bool) (span : Span)
    (owner : FunId) : Variable where
  name := x
  ty := .inCell (s.vars.get origin).ty.ty
  kind := .capture origin
  refed := false
  writable := writable
  owner := some owner
  span := span

section

variable {x : String} {origin : VarId} {writable : Bool} {span : Span} {owner : FunId}

theorem get?_withAlias_self {q : Variable} (hq : s.vars.get? origin = some q) :
    (s.withAlias x origin writable span owner).vars.get? s.vars.nextId
      = some (aliasRecord s x origin writable span owner) := by
  have hne : origin ≠ s.vars.nextId := Variables.ne_nextId hq
  simp only [State.withAlias, Variables.get?_markCaptured, if_neg hne, Variables.get?_push_self]
  rfl

theorem get?_withAlias_of_some {v : VarId} {r : Variable} (hr : s.vars.get? v = some r) :
    (s.withAlias x origin writable span owner).vars.get? v
      = some (if v = origin then r.captured else r) := by
  simp only [State.withAlias, Variables.get?_markCaptured, Variables.get?_push_of_some _ hr]
  by_cases h : v = origin
  · rw [if_pos h.symm, if_pos h, Option.map_some]
  · rw [if_neg fun e => h e.symm, if_neg h]

/-- A record after an alias is made: the new one, or an older one. -/
theorem get?_withAlias {q : Variable} (hq : s.vars.get? origin = some q) {v : VarId} {r : Variable}
    (hr : (s.withAlias x origin writable span owner).vars.get? v = some r) :
    (v = s.vars.nextId ∧ r = aliasRecord s x origin writable span owner) ∨
      ∃ r₀, s.vars.get? v = some r₀ ∧ r = if v = origin then r₀.captured else r₀ := by
  cases h : s.vars.get? v with
  | some r₀ =>
    rw [get?_withAlias_of_some h, Option.some.injEq] at hr
    exact .inr ⟨r₀, rfl, hr.symm⟩
  | none =>
    left
    have hvo : v ≠ origin := by
      rintro rfl
      simp [hq] at h
    by_cases hv : v = s.vars.nextId
    · subst hv
      rw [get?_withAlias_self hq, Option.some.injEq] at hr
      exact ⟨rfl, hr.symm⟩
    · simp [State.withAlias, Variables.get?_markCaptured, Variables.get?_push, hv, h] at hr

end

section

variable {x : String} {origin : VarId} {writable : Bool} {span : Span} {owner : FunId}
  {q : Variable} {f : Frame} {fs : List Frame} {b : Bindings VarId} {bs : List (Bindings VarId)}

theorem extends_withAlias : s.vars.Extends (s.withAlias x origin writable span owner).vars :=
  (Variables.Extends.push _ _).trans (Variables.Extends.markCaptured _ _)

theorem StateOk.withAlias (hs : StateOk s) (hq : s.vars.get? origin = some q)
    (hg : q.isGlobal = false) (hf : s.frames = f :: fs) (ho : f.function = owner)
    (hb : s.varEnv.inner = b :: bs) (hx : f.captures.has x = false) :
    StateOk (s.withAlias x origin writable span owner) where
  descending := by
    intro v r o hr hk
    obtain ⟨rfl, rfl⟩ | ⟨r₀, hr₀, rfl⟩ := get?_withAlias hq hr
    · cases hk
      exact Variables.get?_eq_some_lt hq
    · obtain ⟨b, hb, -⟩ := r₀.marked_eq (v = origin)
      rw [hb] at hk
      exact hs.descending v r₀ o hr₀ hk
  origins := by
    intro v r o hr hk
    obtain ⟨rfl, rfl⟩ | ⟨r₀, hr₀, rfl⟩ := get?_withAlias hq hr
    · cases hk
      obtain ⟨b, hb, -⟩ := q.captured_eq
      refine ⟨rfl, q.captured, ?_, ?_, fun hc => ?_, ?_⟩
      · rw [get?_withAlias_of_some hq, if_pos rfl]
      · rw [hb]
        exact hg
      · exact Variable.refed_captured hg (by rw [hb] at hc; exact hc)
      · rw [hb, aliasRecord, Variables.get_eq_of_get? hq]
        rfl
    · obtain ⟨b, hb, -⟩ := r₀.marked_eq (v = origin)
      rw [hb] at hk ⊢
      obtain ⟨hbox, q₀, hq₀, hg₀, hr', ht₀⟩ := hs.origins v r₀ o hr₀ hk
      obtain ⟨c, hc, hcr⟩ := q₀.marked_eq (o = origin)
      refine ⟨hbox, _, get?_withAlias_of_some hq₀, ?_⟩
      rw [hc]
      exact ⟨hg₀, fun hn => hcr (hr' hn), ht₀⟩
  refs := by
    intro v r hr href
    obtain ⟨rfl, rfl⟩ | ⟨r₀, hr₀, rfl⟩ := get?_withAlias hq hr
    · cases href
    · obtain ⟨b, hb, -⟩ := r₀.captured_eq
      by_cases hv : v = origin
      · subst hv
        rw [if_pos rfl] at href ⊢
        obtain ⟨hg₀, hc₀⟩ := Variable.captured_refed href fun h₀ =>
          ⟨(hs.refs v r₀ hr₀ h₀).1, (hs.refs v r₀ hr₀ h₀).2.1⟩
        rw [hb]
        exact ⟨hg₀, hc₀, _, _, get?_withAlias_self hq, rfl⟩
      · rw [if_neg hv] at href ⊢
        obtain ⟨hg₀, hc₀, w, p, hp, hk⟩ := hs.refs v r₀ hr₀ href
        obtain ⟨p', hp', -, -, hk', -⟩ := extends_withAlias.isSome hp
        exact ⟨hg₀, hc₀, w, p', hp', hk'.trans hk⟩
  module := by
    intro y v hv
    have hm : (s.withAlias x origin writable span owner).varEnv.module = s.varEnv.module := by
      simp only [State.withAlias, Env.declare, hb]
    rw [hm] at hv
    obtain ⟨r, hr, hn, hgl⟩ := hs.module y v hv
    obtain ⟨r', hr', hn', -, hk', -⟩ := extends_withAlias.isSome hr
    exact ⟨r', hr', hn'.trans hn, by simpa [Variable.isGlobal, hk'] using hgl⟩
  aliases := by
    intro v r hr hc
    obtain ⟨rfl, rfl⟩ | ⟨r₀, hr₀, rfl⟩ := get?_withAlias hq hr
    · let k : Capture := ⟨x, s.vars.nextId, origin, writable, span⟩
      refine ⟨owner, rfl, .inl ⟨{ f with captures := f.captures.add k }, ?_, ho, k, ?_, rfl⟩⟩
      · simp only [State.withAlias, hf]
        exact List.mem_cons_self
      · exact Captures.mem_add_self hx
    · obtain ⟨b, hb, -⟩ := r₀.marked_eq (v = origin)
      rw [hb] at hc ⊢
      obtain ⟨g, hg₀, ⟨fr, hfr, hfn, k, hk, hin⟩ | hrec⟩ := hs.aliases v r₀ hr₀ hc
      · refine ⟨g, hg₀, .inl ?_⟩
        simp only [State.withAlias, hf]
        rw [hf, List.mem_cons] at hfr
        obtain rfl | hfr := hfr
        · exact ⟨_, List.mem_cons_self, hfn, k, Captures.mem_add_of_mem hk _, hin⟩
        · exact ⟨fr, List.mem_cons_of_mem _ hfr, hfn, k, hk, hin⟩
      · exact ⟨g, hg₀, .inr hrec⟩
  parents := hs.parents
  orphans := hs.orphans
  arities := hs.arities
  roots := hs.roots
  methods := hs.methods

end

/-! ### The level of the alias -/

/-- A level that declares at most one more name, as nonlocal. -/
structure Level.Widens (l l' : Level) (x : String) : Prop where
  id : l'.id = l.id
  own : l'.own = l.own
  globals : l'.globals = l.globals
  nonlocals : ∀ y, y ≠ x → l'.nonlocals.contains y = l.nonlocals.contains y

theorem Level.Widens.refl (l : Level) (x : String) : l.Widens l x :=
  ⟨rfl, rfl, rfl, fun _ _ => rfl⟩

theorem Level.Widens.adds {l l' : Level} {x : String} (h : l.Widens l' x) : l.Adds l' x :=
  ⟨h.id, fun _ _ => by rw [h.own], fun _ _ => by rw [h.globals], h.nonlocals⟩

theorem LevelOk.alias {F : Facts} {outer : List Level} {l l' : Level} {f : Frame}
    {b : Bindings VarId} {u : Bindings FunId} (hl : LevelOk F outer l f b u) {k : Capture}
    (hk : F.CaptureOk outer l.id k) (hx : List.lookup k.name b = none)
    (hw : l.Widens l' k.name) :
    LevelOk F outer l' { f with captures := f.captures.add k } (b.insert k.name k.inner) u := by
  have hnd := hl.not_declared hx
  have hnear : nearest F.module k.name (l' :: outer) = nearest F.module k.name (l :: outer) := by
    simp only [nearest, hw.own, hw.globals]
  simp only [Level.declares, Bool.or_eq_false_iff, Option.isSome_eq_false_iff,
    Option.isNone_iff_eq_none] at hnd
  have hhas : f.captures.has k.name = false := by
    rw [← Bool.not_eq_true, Captures.has_eq_true]
    rintro ⟨c, hc, hn⟩
    have hb := (hl.captures c hc).1
    rw [hn, hx] at hb
    cases hb
  have hself := Captures.mem_add_self hhas
  refine hl.bind hx ⟨hw.adds, rfl, rfl, ?_, ?_, hw.own ▸ hl.ownNames, ?_, ?_, ?_,
    Captures.nodup_names_add hl.captureNames k, ?_, fun _ => ?_, .inr hnear⟩
  · obtain ⟨⟨r, hr, hn, -⟩, hh⟩ := hk
    refine ⟨r, hr, hn, ?_, .inr (.inr ⟨k, hself, rfl, rfl⟩)⟩
    rw [hnear, nearest_of_not_declared (hl.not_declared hx), hh]
  · intro w hown
    rw [hw.own, hnd.1.1] at hown
    cases hown
  · rw [hw.own]
    exact hl.ownRecords
  · exact fun c hc => Captures.mem_add_of_mem hc k
  · intro c hc
    obtain hc | rfl := Captures.mem_add hc
    · exact .inl hc
    · exact .inr ⟨rfl, rfl, hk⟩
  · intro hg
    rw [hw.globals, hnd.1.2] at hg
    cases hg
  · exact Captures.has_eq_true.2 ⟨k, hself, rfl⟩

/-- Making an alias in the innermost function, under a name that is not bound there. -/
theorem Scoped.withAlias {l l' : Level} {outer : List Level} (h : Scoped classes (l :: outer) s)
    {x : String} {origin : VarId} {q : Variable} (writable : Bool) (span : Span)
    (hq : s.vars.get? origin = some q) (hg : q.isGlobal = false)
    (hx : s.varEnv.lookup x .localScope = none)
    (hh : some (s.vars.home origin) = nearest s.varEnv.module x outer) (hw : l.Widens l' x) :
    Scoped classes (l' :: outer) (s.withAlias x origin writable span l.id) ∧
      Later none (s.facts classes) ((s.withAlias x origin writable span l.id).facts classes) := by
  obtain ⟨hs, hn⟩ := h
  generalize hfr : s.frames = frames at hn
  generalize hin : s.varEnv.inner = scopes at hn
  generalize hfu : s.funEnv.inner = funScopes at hn
  cases hn with
  | @cons _ _ f fs b bs u us hl hrest =>
    have hxb : List.lookup x b = none := by
      simpa [Env.lookup, Env.scopes, hin] using hx
    have hhas : f.captures.has x = false := by
      rw [← Bool.not_eq_true, Captures.has_eq_true]
      rintro ⟨c, hc, rfl⟩
      simp [(hl.captures c hc).1] at hxb
    have hs' : StateOk (s.withAlias x origin writable span l.id) :=
      hs.withAlias hq hg hfr hl.function hin hhas
    have hmod : (s.withAlias x origin writable span l.id).varEnv.module = s.varEnv.module := by
      simp only [State.withAlias, Env.declare, hin]
    have hlater : Later none (s.facts classes)
        ((s.withAlias x origin writable span l.id).facts classes) :=
      ⟨rfl, rfl, hmod, extends_withAlias, hs.descending, hs'.descending,
        fun _ f hf => ⟨f.locals, f.captures, hf, fun _ => ⟨rfl, rfl⟩⟩⟩
    have hk : ((s.withAlias x origin writable span l.id).facts classes).CaptureOk outer l.id
        ⟨x, s.vars.nextId, origin, writable, span⟩ := by
      have hr : (s.withAlias x origin writable span l.id).vars.get? s.vars.nextId
          = some (aliasRecord s x origin writable span l.id) := get?_withAlias_self hq
      refine ⟨⟨_, hr, rfl, rfl, rfl, rfl⟩, ?_⟩
      have hhome := Variables.home_of_capture hs'.descending hr rfl
      have hold := hlater.home hq
      simp only [State.facts] at hold ⊢
      rw [hhome, hold, hh, hmod]
    refine ⟨⟨hs', ?_⟩, hlater⟩
    have hframes : (s.withAlias x origin writable span l.id).frames
        = { f with captures := f.captures.add ⟨x, s.vars.nextId, origin, writable, span⟩ } :: fs := by
      simp only [State.withAlias, hfr]
    have hinner : (s.withAlias x origin writable span l.id).varEnv.inner
        = b.insert x s.vars.nextId :: bs := by
      simp only [State.withAlias, Env.declare, hin]
    have hfuns : (s.withAlias x origin writable span l.id).funEnv.inner = u :: us := hfu
    rw [hframes, hinner, hfuns]
    exact .cons ((hl.later hlater (by simp) (by simp [Finished])).alias hk hxb hw)
      (hrest.later hlater (by simp))

end ObjLang.Check
