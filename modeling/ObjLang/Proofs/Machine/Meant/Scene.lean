import ObjLang.Proofs.Machine.Meant.Image

/-!
# ObjLang.Proofs.Machine.Meant.Scene — a run beside the world that it stands for

A scene is a state of a run, with its ledger, beside a world, with the image of it in memory.
`Meant` says that the innermost call stands for a piece of code that sees some calls: the store
mirrors the world, and the slots of the call hold what its variables denote.  `Turns` is what is left
alone between two scenes of one call.
-/

namespace ObjLang

open Check

/-! ### Calls and worlds -/

/-- The number of the call that a piece of code belongs to. -/
def CallChain.own (sc : CallChain) : Option Nat := sc.head?.map Prod.snd

/-- A world that comes after another one: variables that no nested function captures keep their
values in all calls that had begun, except in one. -/
structure World.Spares (c : CheckedProgram) (own : Option Nat) (σ σ' : World) : Prop where
  calls : σ.calls ≤ σ'.calls
  vars : ∀ a < σ.calls, own ≠ some a → ∀ v, (c.var v).refed = false →
    σ'.vars ⟨some a, v⟩ = σ.vars ⟨some a, v⟩

namespace World.Spares

variable {c : CheckedProgram} {own : Option Nat} {σ σ' σ'' : World}

theorem refl (c : CheckedProgram) (own : Option Nat) (σ : World) : σ.Spares c own σ :=
  ⟨Nat.le_refl _, fun _ _ _ _ _ => rfl⟩

theorem trans (h : σ.Spares c own σ') (h' : σ'.Spares c own σ'') : σ.Spares c own σ'' :=
  ⟨Nat.le_trans h.calls h'.calls, fun a ha hne v hv =>
    (h'.vars a (Nat.lt_of_lt_of_le ha h.calls) hne v hv).trans (h.vars a ha hne v hv)⟩

/-- What spares every call spares all but one. -/
theorem weaken (h : σ.Spares c none σ') (own : Option Nat) : σ.Spares c own σ' :=
  ⟨h.calls, fun a ha _ => h.vars a ha nofun⟩

/-- A variable is written that is one of the call, of the module, or captured. -/
theorem write {pl : Place} {v : Value}
    (hpl : pl.call = own ∨ pl.call = none ∨ (c.var pl.var).refed = true) :
    σ.Spares c own (σ.write pl v) := by
  refine ⟨Nat.le_refl _, fun a _ hne x hx => World.write_of_ne ?_⟩
  rintro rfl
  obtain h | h | h := hpl
  · exact hne h.symm
  · cases h
  · exact absurd (hx.symm.trans h) Bool.false_ne_true

end World.Spares

/-! ### Scenes -/

/-- A state of a run beside a world. -/
structure Scene where
  ledger : Ledger
  trace : Trace
  image : Image
  world : World

namespace Setting

/-- A word is the address of the cell of what a variable denotes. -/
def CellShows (w : Setting) (sc : CallChain) (I : Image) (x : Int32) (v : VarId) : Prop :=
  ∃ pl a q, w.program.place? sc v = some pl ∧ w.program.typeOf pl.var = w.program.typeOf v ∧
    (w.program.var pl.var).refed = true ∧ pl.call = some a ∧ I.cell a pl.var = some q ∧
    x = Int32.ofNat q

/-- The slot of a variable holds a word that stands for its value, or the address of its cell. -/
def VarShows (w : Setting) (sc : CallChain) (I : Image) (σ : World) (F : Frame) (v : VarId) : Prop :=
  ∃ x, F.locals[w.program.slot v]? = some x ∧
    if (w.program.var v).isIndirect then w.CellShows sc I x v
    else w.program.place? sc v = some ⟨sc.own, v⟩ ∧
      (σ.vars ⟨sc.own, v⟩).Stands w.program I x (w.program.typeOf v)

section

variable {w : Setting} {sc : CallChain} {I I' : Image} {σ σ' : World} {F F' : Frame} {v : VarId}
  {x : Int32}

theorem CellShows.mono (h : w.CellShows sc I x v) (hI : I.Sub I') : w.CellShows sc I' x v := by
  obtain ⟨pl, a, q, hpl, hty, href, ha, hq, hx⟩ := h
  exact ⟨pl, a, q, hpl, hty, href, ha, hI.cell a pl.var q hq, hx⟩

theorem VarShows.mono (h : w.VarShows sc I σ F v) (hI : I.Sub I')
    (hslot : F'.locals[w.program.slot v]? = F.locals[w.program.slot v]?)
    (hvalue : (w.program.var v).isIndirect = false →
      σ'.vars ⟨sc.own, v⟩ = σ.vars ⟨sc.own, v⟩) : w.VarShows sc I' σ' F' v := by
  obtain ⟨x, hx, hok⟩ := h
  refine ⟨x, hslot.trans hx, ?_⟩
  split at hok
  · next hind =>
    rw [if_pos hind]
    exact hok.mono hI
  · next hind =>
    rw [if_neg hind, hvalue (Bool.eq_false_iff.2 hind)]
    exact ⟨hok.1, hok.2.mono hI⟩

/-- A variable without a cell is one of a call. -/
theorem VarShows.own_eq (h : w.VarShows sc I σ F v) (hg : (w.program.var v).isGlobal = false)
    (hind : (w.program.var v).isIndirect = false) : ∃ a, sc.own = some a := by
  obtain ⟨x, -, hok⟩ := h
  rw [if_neg (by rw [hind]; exact Bool.false_ne_true), CheckedProgram.place?, hg,
    if_neg Bool.false_ne_true] at hok
  obtain ⟨hplace, -⟩ := hok
  simp only [Option.bind_eq_bind, Option.bind_eq_some_iff] at hplace
  obtain ⟨_, -, a, -, hplace⟩ := hplace
  exact ⟨a, (congrArg Place.call (Option.some.inj hplace)).symm⟩

end

/-- The innermost call stands for a piece of code that sees some calls. -/
structure Meant (w : Setting) (s₀ : Trace) (t₀ : State) (b : Body) (sc : CallChain)
    (V : Scene) : Prop where
  holds : w.Holds s₀ t₀ b (fun _ => True) V.trace.thread.callers.length 0 V.ledger V.trace
  past : w.Past b
  mirrors : w.Mirrors V.image V.world V.ledger.blocks V.trace.thread.store
  vars : ∀ v ∈ b.vars, w.VarShows sc V.image V.world V.trace.thread.frame v
  chain : sc.map Prod.fst = b.levels.map Level.id
  nest : ∃ ds, b.levels = ds.map w.program.level ∧
    ∀ d outer, ds = d :: outer → w.program.Nest outer d
  begun : ∀ e ∈ sc, e.2 < V.world.calls
  /-- Every captured variable has a cell. -/
  plain : ∀ v ∈ b.vars, (w.program.var v).isIndirect = false → (w.program.var v).refed = false
  locals : ∀ y ∈ (w.names b).frame, (w.names b).slot y < V.trace.thread.frame.locals.size

/-- What is left alone between two scenes of one call. -/
structure Turns (w : Setting) (s₀ : Trace) (b : Body) (sc : CallChain) (m : Nat)
    (V V' : Scene) : Prop where
  moves : w.Moves s₀ b m V.ledger V.trace V'.ledger V'.trace
  image : V.image.Sub V'.image
  spares : V.world.Spares w.program sc.own V'.world
  mirrors : w.Mirrors V'.image V'.world V'.ledger.blocks V'.trace.thread.store
  vars : ∀ v ∈ b.vars, w.VarShows sc V'.image V'.world V'.trace.thread.frame v
  locals : V'.trace.thread.frame.locals.size = V.trace.thread.frame.locals.size

variable {w : Setting} {s₀ : Trace} {t₀ : State} {b : Body} {sc : CallChain} {m m' : Nat}
  {V V' V'' : Scene} {v : VarId}

theorem Turns.trans (h : w.Turns s₀ b sc m V V') (h' : w.Turns s₀ b sc m' V' V'')
    (hm : m ≤ m') : w.Turns s₀ b sc m V V'' :=
  ⟨h.moves.trans h'.moves hm, h.image.trans h'.image, h.spares.trans h'.spares, h'.mirrors,
    h'.vars, h'.locals.trans h.locals⟩

theorem Turns.le (h : w.Turns s₀ b sc m' V V') (hm : m ≤ m') : w.Turns s₀ b sc m V V' :=
  { h with moves := h.moves.le hm }

/-- The number of a call that a piece of code sees. -/
theorem CallChain.own_mem {sc : CallChain} {a : Nat} (h : sc.own = some a) :
    ∃ e ∈ sc, e.2 = a := by
  obtain ⟨e, he, rfl⟩ := Option.map_eq_some_iff.1 h
  exact ⟨e, List.mem_of_head? he, rfl⟩

namespace Meant

theorem refl (h : w.Meant s₀ t₀ b sc V) (m : Nat) : w.Turns s₀ b sc m V V :=
  ⟨h.holds.refl m, .refl _, .refl _ _ _, h.mirrors, h.vars, rfl⟩

theorem follow (h : w.Meant s₀ t₀ b sc V) (ht : w.Turns s₀ b sc m V V') :
    w.Meant s₀ t₀ b sc V' where
  holds := by
    rw [ht.moves.callers]
    exact h.holds.follow ht.moves
  past := h.past
  mirrors := ht.mirrors
  vars := ht.vars
  chain := h.chain
  nest := h.nest
  begun := fun e he => Nat.lt_of_lt_of_le (h.begun e he) ht.spares.calls
  plain := h.plain
  locals := fun y hy => (h.locals y hy).trans_eq ht.locals.symm

theorem compiled (h : w.Meant s₀ t₀ b sc V) :
    ∃ p o, Compiled p w.program t₀ o w.module w.linked :=
  h.holds.solid.compiled

/-- The run goes on in the call, where the variables of the call keep their words and the world
stays the same. -/
theorem turns (h : w.Meant s₀ t₀ b sc V) {H : Ledger} {s : Trace}
    (hm : w.Moves s₀ b m V.ledger V.trace H s)
    (hmirrors : w.Mirrors V.image V.world H.blocks s.thread.store)
    (hslots : ∀ v ∈ b.vars, s.thread.frame.locals[w.program.slot v]?
      = V.trace.thread.frame.locals[w.program.slot v]?)
    (hsize : s.thread.frame.locals.size = V.trace.thread.frame.locals.size) :
    w.Turns s₀ b sc m V ⟨H, s, V.image, V.world⟩ :=
  ⟨hm, .refl _, .refl _ _ _, hmirrors, fun v hv => (h.vars v hv).mono (.refl _) (hslots v hv)
    fun _ => rfl, hsize⟩

end Meant

/-- What is left alone between the begin and the end of a call, beside its caller. -/
structure ComesBack (w : Setting) (s₀ : Trace) (V V' : Scene) : Prop where
  sub : V.ledger.Sub V'.ledger
  heap_le : V.trace.heap ≤ V'.trace.heap
  heap : w.HeapOk s₀ V'.ledger V'.trace.thread.store V'.trace.heap
  image : V.image.Sub V'.image
  spares : V.world.Spares w.program none V'.world
  mirrors : w.Mirrors V'.image V'.world V'.ledger.blocks V'.trace.thread.store

/-- The caller goes on behind a call. -/
theorem Meant.resume (h : w.Meant s₀ t₀ b sc V) (hr : w.ComesBack s₀ V V') (m : Nat) :
    w.Turns s₀ b sc m V { V' with trace := V.trace.resume V'.trace } where
  moves := h.holds.moves_resume hr.sub hr.heap_le hr.heap m
  image := hr.image
  spares := hr.spares.weaken sc.own
  mirrors := hr.mirrors
  vars := fun v hv => by
    refine (h.vars v hv).mono hr.image rfl fun hind => ?_
    -- The variable is one of the call, which had begun before.
    obtain ⟨a, hown⟩ := (h.vars v hv).own_eq (h.holds.body.notGlobal v hv) hind
    obtain ⟨e, he, rfl⟩ := CallChain.own_mem hown
    rw [hown]
    exact hr.spares.vars e.2 (h.begun e he) nofun v (h.plain v hv hind)
  locals := rfl

/-- A run comes to an end that it may come to once the call goes on at a position with one more
operand, which stands for a value of a type. -/
def Yields (w : Setting) (s₀ : Trace) (b : Body) (sc : CallChain) (fin : Outcome) (m : Nat)
    (V : Scene) (a : Nat) (S : List Int32) (t : Ty) (K : Value → Eval (Option Value)) : Prop :=
  ∀ V' v x, w.Turns s₀ b sc m V V' → v.Stands w.program V'.image x t →
    (K v).Leads V'.world (printed V'.trace) fin →
    w.Ends s₀ fin V'.ledger (V'.trace.on a (x :: S))

theorem Yields.follow {fin : Outcome} {a : Nat} {S : List Int32} {t : Ty}
    {K : Value → Eval (Option Value)} (h : w.Yields s₀ b sc fin m V a S t K)
    (ht : w.Turns s₀ b sc m V V') (hle : m ≤ m') : w.Yields s₀ b sc fin m' V' a S t K :=
  fun _ _ _ ht' hv hK => h _ _ _ (ht.trans ht' hle) hv hK

/-- The same, once a call that the call waits for has come back. -/
def Resumes (w : Setting) (s₀ : Trace) (b : Body) (sc : CallChain) (fin : Outcome) (m : Nat)
    (V : Scene) (a : Nat) (S : List Int32) (t : Ty) (K : Value → Eval (Option Value)) : Prop :=
  ∀ V' v x, w.Turns s₀ b sc m V V' → V'.trace.thread.frame = V.trace.thread.frame →
    v.Stands w.program V'.image x t → (K v).Leads V'.world (printed V'.trace) fin →
    w.Ends s₀ fin V'.ledger (V'.trace.on a (x :: S))

theorem Yields.resumes {fin : Outcome} {a : Nat} {S : List Int32} {t : Ty}
    {K : Value → Eval (Option Value)} (h : w.Yields s₀ b sc fin m V a S t K) :
    w.Resumes s₀ b sc fin m V a S t K :=
  fun V' v x ht _ hv hK => h V' v x ht hv hK

end Setting

end ObjLang
