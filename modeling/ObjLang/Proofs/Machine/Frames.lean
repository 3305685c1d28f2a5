import ObjLang.Proofs.Machine.Functions
import ObjLang.Proofs.Machine.Trace
import ObjLang.Proofs.Parts

/-!
# ObjLang.Proofs.Machine.Frames — what holds of the calls under way

`Stacked` is the invariant of runs of a compiled program.  A nested function runs directly above the
function around it, and its captures hold the words in the slots that the call names.  Past its
prologue a call keeps each captured variable of its own in a cell that was allocated since it began
and before any call above it began.  `Sound` adds to it the heap pointer, the size of the memory,
and what the next instruction may do: it changes no slot that holds a cell, it guards a receiver if
it calls the guard, and it finds room in the memory if it calls the allocator.
-/

namespace ObjLang

open Check Check.Facts

/-- A compiled program with the memory that it runs in. -/
structure Setting where
  program : CheckedProgram
  module : Code.Module
  linked : LinkedModule
  maxDepth : Nat
  /-- The bytes of the memory. -/
  size : Nat
  /-- The address at which the heap starts. -/
  base : Nat
  /-- Whether it is claimed that the heap lies in the memory. -/
  fits : Prop

/-- The variables of a definition that live in cells of its own. -/
def CheckedProgram.boxed (c : CheckedProgram) (d : FunDef) : List VarId :=
  ((c.record d).params ++ (c.record d).locals).filter fun v => (c.var v).refed

/-- The statements of the function of a name in generated code, and the position at which their code
begins. -/
inductive CheckedProgram.Statements (c : CheckedProgram) : String → List Stmt → Nat → Prop where
  | entry : Statements c Emit.entryName c.program.body 0
  | definition {outer : List FunDef} {d : FunDef} : c.Nest outer d →
    Statements c (c.emitted d) d.body (c.prologue d)

/-- A call `F` of the nested definition `d` by a call `G` of the definition `e`, which stands behind
the code of the call: each capture of `d` holds the word in the slot of the variable that is passed
for it, and both stand for the same variable. -/
structure CheckedProgram.PassedAt (c : CheckedProgram) (m : Code.Module) (d : FunDef) (F : Frame)
    (e : FunDef) (g : Code.Func) (G : Frame) (i : ExprInfo) (callee : Ident) (args : List Expr)
    (id : FunId) (vs : List VarId) : Prop where
  id_eq : d.id = some id
  occurs : Expr.OccursIn e.body (.call i callee args (some (.function id vs)))
  code : ∃ n a n', Emit.ExprAt c (m.names g) G.code (.call i callee args (some (.function id vs))) n
    a n' G.position
  cells : List.Forall₂ (fun v k => v ∈ (c.record e).slots ∧ (c.var v).isIndirect = true ∧
    c.vars.home v = c.vars.home k.inner ∧
    ∃ x, F.locals[c.slot k.inner]? = some x ∧ G.locals[c.slot v]? = some x)
    vs (c.record d).captures

/-- A call of a nested definition by a call of another definition. -/
def CheckedProgram.Passed (c : CheckedProgram) (m : Code.Module) (d : FunDef) (F : Frame)
    (e : FunDef) (G : Frame) : Prop :=
  ∃ g ∈ m.functions, g.name = c.emitted e ∧ ∃ i callee args id vs,
    c.PassedAt m d F e g G i callee args id vs

namespace Setting

variable (w : Setting)

/-! ### Cells -/

/-- The cell of a variable of a call: its slot holds the address. -/
structure CellAt (F : Frame) (v : VarId) (a lo hi : Nat) : Prop where
  slot : F.locals[w.program.slot v]? = some (Int32.ofNat a)
  lo : lo ≤ a
  hi : a + 4 ≤ hi
  inside : Memory.position (Int32.ofNat a) 0 + 4 ≤ w.size
  fits : w.fits → w.size < 2 ^ 32 → a + 4 ≤ w.size

/-- Variables have different cells, allocated while the heap pointer went from one number to
another. -/
def Cells (vs : List VarId) (F : Frame) (lo hi : Nat) : Prop :=
  ∃ cell : VarId → Nat, (∀ v ∈ vs, w.CellAt F v (cell v) lo hi) ∧
    ∀ v ∈ vs, ∀ u ∈ vs, v ≠ u → cell v + 4 ≤ cell u ∨ cell u + 4 ≤ cell v

/-! ### Frames -/

/-- A call of the function of a name in generated code. -/
def Runs (x : String) (a : Trace.Call) (F : Frame) : Prop :=
  a.function = w.module.index x ∧
    ∃ f, w.linked.function? (w.module.index x) = some f ∧ F.code = f.code

/-- A call that may call definitions: it is not one of the generator's own functions, and it is past
its prologue. -/
structure Waiting (b : Trace.Call) (G : Frame) : Prop where
  notAlloc : b.function ≠ w.module.index Emit.allocName
  notRoot : b.function ≠ w.module.index (methodTarget rootClass initMethod)
  past : ∀ outer e, w.program.Nest outer e →
    b.function = w.module.index (w.program.emitted e) → w.program.prologue e ≤ G.position

/-- A call `F` of the nested definition `d` directly above a call `G` of the function `q`. -/
def Links (d : FunDef) (F : Frame) (b : Trace.Call) (G : Frame) (q : FunId) : Prop :=
  ∃ outer e, w.program.Nest outer e ∧ e.id = some q ∧
    b.function = w.module.index (w.program.emitted e) ∧
    w.program.Passed w.module d F e G

/-- The calls under way, innermost first, where the heap pointer has come to a number. -/
inductive Stacked : Nat → List Frame → List Trace.Call → Prop where
  | entry {hi : Nat} {F : Frame} {a : Trace.Call} : w.Runs Emit.entryName a F → a.start ≤ hi →
    Stacked hi [F] [a]
  | helper {hi : Nat} {F G : Frame} {a b : Trace.Call} {Fs : List Frame} {as : List Trace.Call}
      {x : String} : x = Emit.allocName ∨ x = methodTarget rootClass initMethod → w.Runs x a F →
    a.start ≤ hi → Stacked a.start (G :: Fs) (b :: as) → Stacked hi (F :: G :: Fs) (a :: b :: as)
  | body {hi : Nat} {F G : Frame} {a b : Trace.Call} {Fs : List Frame} {as : List Trace.Call}
      {outer : List FunDef} {d : FunDef} : w.program.Nest outer d →
    w.Runs (w.program.emitted d) a F →
    (∀ q, (w.program.record d).parent = some q → w.Links d F b G q) → w.Waiting b G →
    (w.program.prologue d ≤ F.position → w.Cells (w.program.boxed d) F a.start hi) →
    a.start ≤ hi → Stacked a.start (G :: Fs) (b :: as) → Stacked hi (F :: G :: Fs) (a :: b :: as)

/-! ### The next instruction -/

/-- A slot that holds no cell of a call that is past its prologue. -/
def Spares (a : Trace.Call) (i k : Nat) : Prop :=
  ∀ outer d, w.program.Nest outer d → a.function = w.module.index (w.program.emitted d) →
    w.program.prologue d ≤ i → ∀ v ∈ (w.program.record d).slots,
      (w.program.var v).isIndirect = true → k ≠ w.program.slot v

/-- A jump that does not lead back to the prologue. -/
def StaysPast (a : Trace.Call) (i k : Nat) : Prop :=
  ∀ outer d, w.program.Nest outer d → a.function = w.module.index (w.program.emitted d) →
    w.program.prologue d ≤ i → w.program.prologue d ≤ k

/-- The heap lies in the memory. -/
def Room (s : Trace) : Prop := w.fits → w.size < 2 ^ 32 → w.base ≤ s.heap ∧ s.heap ≤ w.size

/-- An object of a class at an address lies in the heap. -/
def Placed (l : ClassLayout) (a : Nat) : Prop :=
  w.fits → w.size < 2 ^ 32 → w.base ≤ a ∧ a + 4 * l.words ≤ w.size

/-- The innermost call of a state is at the guard behind a receiver in its statements. -/
def Guards (s : Trace) (a : Trace.Call) : Prop :=
  ∃ g ∈ w.module.functions, a.function = w.module.index g.name ∧ ∃ ss start o i,
    w.program.Statements g.name ss start ∧ start ≤ i ∧ Emit.GuardAt w.program (w.module.names g)
      s.thread.frame.code ss o i s.thread.frame.position

/-- Where the innermost call of a state may write: into new memory, behind all cells; at the end of
an assignment to a variable with a cell, into the cell; at the end of one to a field, at any address
that it was given. -/
inductive Stores (s : Trace) (a : Trace.Call) (x : Int32) (j : Nat) : Prop where
  | fresh {n : Nat} : x = Int32.ofNat n → a.start ≤ n → (w.fits → w.size < 2 ^ 32 → n ≤ w.size) →
    (∀ outer d, w.program.Nest outer d → a.function = w.module.index (w.program.emitted d) →
      w.program.prologue d ≤ s.thread.frame.position →
        w.Cells (w.program.boxed d) s.thread.frame a.start n) → Stores s a x j
  | cell {outer : List FunDef} {d : FunDef} {g : Code.Func} {y : Ident} {v : VarId} :
    w.program.Nest outer d → g ∈ w.module.functions → g.name = w.program.emitted d →
    a.function = w.module.index g.name → w.program.prologue d ≤ s.thread.frame.position →
    Emit.EndsAt w.program (w.module.names g) s.thread.frame.code d.body (.name y (some v))
      s.thread.frame.position →
    v ∈ (w.program.record d).slots → (w.program.var v).isIndirect = true →
    s.thread.frame.locals[w.program.slot v]? = some x → j = 0 → Stores s a x j
  | field {g : Code.Func} {ss : List Stmt} {start : Nat} {o : Expr} {f : Ident} :
    g ∈ w.module.functions → a.function = w.module.index g.name →
    w.program.Statements g.name ss start → start ≤ s.thread.frame.position →
    Emit.EndsAt w.program (w.module.names g) s.thread.frame.code ss (.field o f)
      s.thread.frame.position → Stores s a x j

/-- What the next instruction of the innermost call may do. -/
def OpOk (s : Trace) (a : Trace.Call) : Op → Prop
  | .localSet k => w.Spares a s.thread.frame.position k
  | .jump k | .jumpIf k | .jumpUnless k => w.StaysPast a s.thread.frame.position k
  | .call j => (j = w.module.index Emit.checkInitName → w.Guards s a) ∧
    (j = w.module.index Emit.allocName → w.Room s)
  | .store j => ∀ y x S, s.thread.frame.stack = y :: x :: S → w.Stores s a x j
  | _ => True

/-- What holds of every state of a run. -/
structure Sound (s : Trace) : Prop where
  stacked : w.Stacked s.heap s.thread.frames s.calls
  heap : s.thread.store.globals[0]? = some (Int32.ofNat s.heap)
  memory : s.thread.store.memory.size = w.size
  op : ∀ op, s.thread.frame.code[s.thread.frame.position]? = some op →
    ∀ a, s.calls.head? = some a → w.OpOk s a op

/-- A property that sound states have in which at least `k` calls wait, and if only these wait, the
innermost call has not come to the position `lim`. -/
def Admits (Q : Trace → Prop) (k lim : Nat) : Prop :=
  ∀ s, w.Sound s → k ≤ s.thread.callers.length →
    (s.thread.callers.length = k → s.thread.frame.position < lim) → Q s

variable {w} {hi hi' lo : Nat} {F F' G : Frame} {Fs : List Frame} {a b : Trace.Call}
  {as : List Trace.Call} {Q : Trace → Prop} {k lim lim' : Nat}

/-- Inside a call nothing is asked of positions. -/
theorem Admits.inner (h : w.Admits Q k lim) (lim' : Nat) : w.Admits Q (k + 1) lim' :=
  fun s hs hk _ => h s hs (Nat.le_of_succ_le hk) fun heq => absurd hk (by omega)

theorem Stacked.exists_call (h : w.Stacked hi Fs as) : ∃ a rest, as = a :: rest := by
  cases h with
  | entry => exact ⟨_, _, rfl⟩
  | helper => exact ⟨_, _, rfl⟩
  | body => exact ⟨_, _, rfl⟩

theorem Cells.mono {vs : List VarId} (h : w.Cells vs F lo hi) (hhi : hi ≤ hi')
    (hF : ∀ v ∈ vs, F'.locals[w.program.slot v]? = F.locals[w.program.slot v]?) :
    w.Cells vs F' lo hi' := by
  obtain ⟨cell, hcell, hapart⟩ := h
  refine ⟨cell, fun v hv => ?_, hapart⟩
  have hc := hcell v hv
  exact ⟨(hF v hv).trans hc.slot, hc.lo, Nat.le_trans hc.hi hhi, hc.inside, hc.fits⟩

/-- Links stay where the slots of the captures keep their words. -/
theorem Links.congr {d : FunDef} {q : FunId} (h : w.Links d F b G q)
    (hF : ∀ k ∈ (w.program.record d).captures,
      F'.locals[w.program.slot k.inner]? = F.locals[w.program.slot k.inner]?) :
    w.Links d F' b G q := by
  obtain ⟨outer, e, he, heq, hf, g, hg, hgn, i, callee, args, id, vs, hid, hocc, hcode, hall⟩ := h
  refine ⟨outer, e, he, heq, hf, g, hg, hgn, i, callee, args, id, vs, hid, hocc, hcode, ?_⟩
  refine List.forall₂_iff_get.2 ⟨hall.length_eq, fun j hj hj' => ?_⟩
  obtain ⟨hv, hind, hhome, x, hx, hgx⟩ := (List.forall₂_iff_get.1 hall).2 j hj hj'
  refine ⟨hv, hind, hhome, x, ?_, hgx⟩
  rw [hF _ (List.get_mem (w.program.record d).captures ⟨j, hj'⟩)]
  exact hx

theorem isIndirect_of_boxed {d : FunDef} {v : VarId} (hv : v ∈ w.program.boxed d) :
    v ∈ (w.program.record d).slots ∧ (w.program.var v).isIndirect = true := by
  obtain ⟨hmem, hrefed⟩ := List.mem_filter.1 hv
  refine ⟨?_, by simp [Variable.isIndirect, hrefed]⟩
  simp only [Function.slots, List.mem_append] at hmem ⊢
  exact hmem.imp_left .inl

theorem Stacked.start_le (h : w.Stacked hi Fs (a :: as)) : a.start ≤ hi := by
  cases h with
  | entry _ ha => exact ha
  | helper _ _ ha _ => exact ha
  | body _ _ _ _ _ ha _ => exact ha

/-- What holds of a call of a definition and of the call below it. -/
structure RestsOn (hi : Nat) (d : FunDef) (F : Frame) (a : Trace.Call) (G : Frame)
    (b : Trace.Call) : Prop where
  links : ∀ q, (w.program.record d).parent = some q → w.Links d F b G q
  waiting : w.Waiting b G
  cells : w.program.prologue d ≤ F.position → w.Cells (w.program.boxed d) F a.start hi

/-- A call of a definition rests on another call. -/
theorem Stacked.restsOn {p : Program} {t₀ : State} {o : Options} {outer : List FunDef} {d : FunDef}
    (hw : Compiled p w.program t₀ o w.module w.linked) (h : w.Stacked hi (F :: Fs) (a :: as))
    (hd : w.program.Nest outer d) (ha : a.function = w.module.index (w.program.emitted d)) :
    ∃ G Gs b bs, Fs = G :: Gs ∧ as = b :: bs ∧ w.RestsOn hi d F a G b ∧
      w.Stacked a.start Fs as := by
  have hne : ∀ x ∈ w.module.functionNames, a.function = w.module.index x →
      w.program.emitted d = x := fun x hx heq =>
    Code.Module.index_inj (hw.emitted_mem hd) hx (ha.symm.trans heq)
  cases h with
  | entry hr _ =>
    exact absurd (hne _ hw.entry_mem hr.1) (hw.checked.emitted_ne_made hw.words hd
      (by decide : Emit.entryName.toList = '#' :: ['e', 'n', 't', 'r', 'y']))
  | helper hx hr _ _ =>
    obtain rfl | rfl := hx
    · exact absurd (hne _ hw.alloc_mem hr.1) (hw.checked.emitted_ne_made hw.words hd
        (by decide : Emit.allocName.toList = '#' :: ['a', 'l', 'l', 'o', 'c']))
    · exact absurd (hne _ hw.root_mem hr.1) (hw.checked.emitted_ne_root hw.words hd)
  | @body _ _ G _ b Gs bs outer' d' hd' hr hlinks hwaiting hcells _ hrest =>
    obtain rfl := hw.checked.emitted_inj hw.words hd hd' (hne _ (hw.emitted_mem hd') hr.1)
    exact ⟨G, Gs, b, bs, rfl, rfl, ⟨hlinks, hwaiting, hcells⟩, hrest⟩

/-- The frame of a call is another one at the same place, with the same cells. -/
theorem Stacked.top {p : Program} {t₀ : State} {o : Options}
    (hw : Compiled p w.program t₀ o w.module w.linked) (h : w.Stacked hi (F :: Fs) (a :: as))
    (hhi : hi ≤ hi')
    (hcode : F'.code = F.code)
    (hpast : w.StaysPast a F'.position F.position)
    (hslots : ∀ outer d, w.program.Nest outer d →
      a.function = w.module.index (w.program.emitted d) → ∀ v ∈ (w.program.record d).slots,
        ((w.program.var v).isCapture = true ∨ w.program.prologue d ≤ F'.position) →
        (w.program.var v).isIndirect = true →
        F'.locals[w.program.slot v]? = F.locals[w.program.slot v]?) :
    w.Stacked hi' (F' :: Fs) (a :: as) := by
  cases h with
  | entry hr ha => exact .entry ⟨hr.1, hcode ▸ hr.2⟩ (Nat.le_trans ha hhi)
  | helper hx hr ha hrest => exact .helper hx ⟨hr.1, hcode ▸ hr.2⟩ (Nat.le_trans ha hhi) hrest
  | @body _ _ _ _ _ _ _ outer d hd hr hlinks hwaiting hcells ha hrest =>
    refine .body hd ⟨hr.1, hcode ▸ hr.2⟩ (fun q hq => ?_) hwaiting (fun hpos => ?_)
      (Nat.le_trans ha hhi) hrest
    · refine (hlinks q hq).congr fun e he => ?_
      obtain ⟨hcap, hind⟩ := hw.capture_var hd he
      exact hslots outer d hd hr.1 _ (Compiled.mem_slots_of_capture he) (.inl hcap) hind
    · refine (hcells (hpast outer d hd hr.1 hpos)).mono hhi fun v hv => ?_
      obtain ⟨hmem, hind⟩ := isIndirect_of_boxed hv
      exact hslots outer d hd hr.1 v hmem (.inr hpos) hind

end Setting

end ObjLang
