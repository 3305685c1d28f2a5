import ObjLang.Proofs.Machine.Meant.Call
import ObjLang.Proofs.Machine.Typed.Access

/-!
# ObjLang.Proofs.Machine.Meant.Access — operators, variables and host functions

The code of an operator, of a variable or of a builtin function leaves the word that stands for the
value that the operator, the variable or the function gives, or traps as it does.
-/

namespace ObjLang

open Check Check.Facts

/-! ### Words -/

theorem powWord_eq (base : Int32) (n : Nat) : powWord base n = base ^ n := by
  induction n using Nat.strongRecOn generalizing base with
  | ind n ih =>
    have hsquare : ∀ m : Nat, (base * base) ^ m = base ^ (2 * m) := by
      intro m
      induction m with
      | zero => rfl
      | succ m ih =>
        rw [Int32.pow_succ, ih, Nat.mul_succ, Int32.pow_succ, Int32.pow_succ, Int32.mul_assoc]
    rw [powWord]
    by_cases hzero : n = 0
    · rw [if_pos hzero, hzero, Int32.pow_zero]
    rw [if_neg hzero, ih (n / 2) (by omega), hsquare]
    by_cases hodd : n % 2 = 1
    · rw [if_pos hodd, Int32.mul_comm, ← Int32.pow_succ]
      exact congrArg (base ^ ·) (by omega)
    · rw [if_neg hodd]
      exact congrArg (base ^ ·) (by omega)

theorem truthWord_inj {a b : Bool} (h : truthWord a = truthWord b) : a = b := by
  revert a b
  decide

/-! ### References -/

namespace Setting

variable {w : Setting} {s₀ : Trace} {t₀ : State} {I : Image} {σ : World} {H : Ledger} {st : Store}
  {heap : Nat} {u v : Value} {x y : Int32} {t t' : Ty}

theorem BlockKind.words_pos (k : BlockKind) : 0 < k.words := by
  cases k with
  | object l => exact Nat.succ_pos _
  | cell v => exact Nat.one_pos

/-- The address of a block as a word. -/
theorem HeapOk.toInt_address (h : w.HeapOk s₀ H st heap) (hsize : w.size < 2 ^ 31) {B : Block}
    (hB : B ∈ H.blocks) : (Int32.ofNat B.address).toInt = B.address := by
  obtain ⟨-, -, -, hstop⟩ := h.inside B hB
  have hdef : B.stop = B.address + 4 * B.kind.words := rfl
  exact Int32.toInt_ofNat_of_lt (by omega)

/-- The address of a block is positive. -/
theorem HeapOk.address_pos (h : w.HeapOk s₀ H st heap) (hsize : w.size < 2 ^ 31)
    (hbase : 0 < w.base) {B : Block} (hB : B ∈ H.blocks) : 0 < Int32.ofNat B.address := by
  have hlow := (h.inside B hB).1
  have hint : (0 : Int32).toInt = 0 := rfl
  rw [Int32.lt_iff_toInt_lt, h.toInt_address hsize hB, hint]
  omega

/-- Blocks with one address are one block. -/
theorem HeapOk.address_inj (h : w.HeapOk s₀ H st heap) (hsize : w.size < 2 ^ 31) {B B' : Block}
    (hB : B ∈ H.blocks) (hB' : B' ∈ H.blocks)
    (heq : Int32.ofNat B.address = Int32.ofNat B'.address) : B = B' := by
  have hint := congrArg Int32.toInt heq
  rw [h.toInt_address hsize hB, h.toInt_address hsize hB'] at hint
  have hdef : B.stop = B.address + 4 * B.kind.words := rfl
  have hdef' : B'.stop = B'.address + 4 * B'.kind.words := rfl
  have hpos := BlockKind.words_pos B.kind
  have hpos' := BlockKind.words_pos B'.kind
  obtain hsame | hapart | hapart := h.apart B hB B' hB'
  · exact hsame
  · omega
  · omega

/-- What is known of a reference: it is empty, or leads to an object. -/
theorem Mirrors.stands_reference (h : w.Mirrors I σ H.blocks st) (ht : t.isNullable = true)
    (hu : u.Stands w.program I x t) :
    (u = .none ∧ x = 0) ∨ ∃ (r : Nat) (B : Block), u = .object r ∧ I.objects[r]? = some B ∧
      B ∈ H.blocks ∧ x = Int32.ofNat B.address := by
  cases t with
  | none => exact .inl hu
  | object k =>
    obtain hu | ⟨r, B, l, hu, hr, hx, -⟩ := hu
    · exact .inl hu
    · exact .inr ⟨r, B, hu, hr, (h.object r B hr).1, hx⟩
  | _ => cases ht

/-- References are the same if their words are. -/
theorem Mirrors.reference_eq_iff (h : w.Mirrors I σ H.blocks st) (hheap : w.HeapOk s₀ H st heap)
    (hsolid : w.Solid s₀ t₀) (ht : t.isNullable = true) (ht' : t'.isNullable = true)
    (hu : u.Stands w.program I x t) (hv : v.Stands w.program I y t') : u = v ↔ x = y := by
  have hpos : ∀ B ∈ H.blocks, Int32.ofNat B.address ≠ 0 := fun B hB heq => by
    have hlt := hheap.address_pos hsolid.size hsolid.base.1 hB
    rw [heq] at hlt
    exact absurd hlt (by decide)
  obtain ⟨rfl, rfl⟩ | ⟨r, B, rfl, hr, hB, rfl⟩ := h.stands_reference ht hu
  · obtain ⟨rfl, rfl⟩ | ⟨r', B', rfl, hr', hB', rfl⟩ := h.stands_reference ht' hv
    · exact iff_of_true rfl rfl
    · exact iff_of_false nofun (hpos B' hB').symm
  · obtain ⟨rfl, rfl⟩ | ⟨r', B', rfl, hr', hB', rfl⟩ := h.stands_reference ht' hv
    · exact iff_of_false nofun (hpos B hB)
    · constructor
      · rintro ⟨⟩
        cases hr.symm.trans hr'
        rfl
      · intro heq
        obtain rfl := hheap.address_inj hsolid.size hB hB' heq
        rw [h.distinct r r' B hr hr']

/-- Values of one type that is none of objects are the same if their words are. -/
theorem Value.plain_eq_iff {c : CheckedProgram} (ht : t.isObject = false) (hu : u.Stands c I x t)
    (hv : v.Stands c I y t) : u = v ↔ x = y := by
  cases t with
  | int =>
    obtain rfl : u = .int x := hu
    obtain rfl : v = .int y := hv
    exact Value.int.injEq x y ▸ Iff.rfl
  | bool =>
    obtain ⟨a, rfl, rfl⟩ := hu
    obtain ⟨b, rfl, rfl⟩ := hv
    exact ⟨by rintro ⟨⟩; rfl, fun h => congrArg _ (truthWord_inj h)⟩
  | none =>
    obtain ⟨rfl, rfl⟩ := hu
    obtain ⟨rfl, rfl⟩ := hv
    exact iff_of_true rfl rfl
  | object k => cases ht

/-! ### Operators -/

/-- The operation of an operator traps as the operator does, or gives the word that stands for its
value. -/
theorem Mirrors.binary (h : w.Mirrors I σ H.blocks st) (hheap : w.HeapOk s₀ H st heap)
    (hsolid : w.Solid s₀ t₀) {op : BinaryOp} {a b : Ty} (hop : binaryType? op a b = some t)
    (hu : u.Stands w.program I x a) (hv : v.Stands w.program I y b) {r : Except Trap Value}
    (hr : op.apply u v = some r) :
    (∃ e, r = .error e ∧ (Emit.binaryOp op).eval x y = .error e) ∨
      ∃ z k, r = .ok z ∧ (Emit.binaryOp op).eval x y = .ok k ∧ z.Stands w.program I k t := by
  have harith : a = .int ∧ b = .int → u = .int x ∧ v = .int y := by
    rintro ⟨rfl, rfl⟩
    exact ⟨hu, hv⟩
  have hsame : ∀ {op : BinaryOp}, op.isArithmetic = false → op.isOrdering = false →
      binaryType? op a b = some t → t = .bool ∧ (u = v ↔ x = y) := by
    intro op h₁ h₂ hop
    simp only [binaryType?, h₁, h₂, Bool.false_eq_true, if_false] at hop
    split at hop
    · obtain ⟨⟨rfl, hplain⟩, hbool⟩ := Option.ite_none_right_eq_some.1 hop
      exact ⟨(Option.some.inj hbool).symm, Value.plain_eq_iff hplain hu hv⟩
    · obtain ⟨⟨hl, hr⟩, hbool⟩ := Option.ite_none_right_eq_some.1 hop
      exact ⟨(Option.some.inj hbool).symm, h.reference_eq_iff hheap hsolid hl hr hu hv⟩
  cases op with
  | eq | is =>
    obtain ⟨rfl, hiff⟩ := hsame rfl rfl hop
    cases hr
    refine .inr ⟨_, _, rfl, rfl, decide (u = v), rfl, congrArg truthWord ?_⟩
    rw [Bool.eq_iff_iff, beq_iff_eq, decide_eq_true_eq, hiff]
  | ne =>
    obtain ⟨rfl, hiff⟩ := hsame rfl rfl hop
    cases hr
    refine .inr ⟨_, _, rfl, rfl, decide (u ≠ v), rfl, congrArg truthWord ?_⟩
    rw [Bool.eq_iff_iff, bne_iff_ne, decide_eq_true_eq, ne_eq, ne_eq, hiff]
  | floorDiv =>
    simp [binaryType?, BinaryOp.isArithmetic] at hop
    obtain ⟨hints, rfl⟩ := hop
    obtain ⟨rfl, rfl⟩ := harith hints
    simp only [BinaryOp.apply] at hr
    simp only [Emit.binaryOp, WordOp.eval]
    split at hr
    · next hzero =>
      cases hr
      exact .inl ⟨_, rfl, if_pos hzero⟩
    split at hr
    · next hzero hover =>
      cases hr
      exact .inl ⟨_, rfl, by rw [if_neg hzero, if_pos hover]⟩
    · next hzero hover =>
      cases hr
      exact .inr ⟨_, _, rfl, by rw [if_neg hzero, if_neg hover], rfl⟩
  | mod =>
    simp [binaryType?, BinaryOp.isArithmetic] at hop
    obtain ⟨hints, rfl⟩ := hop
    obtain ⟨rfl, rfl⟩ := harith hints
    simp only [BinaryOp.apply] at hr
    simp only [Emit.binaryOp, WordOp.eval]
    split at hr
    · next hzero =>
      cases hr
      exact .inl ⟨_, rfl, if_pos hzero⟩
    · next hzero =>
      cases hr
      exact .inr ⟨_, _, rfl, if_neg hzero, rfl⟩
  | add | sub | mul =>
    simp [binaryType?, BinaryOp.isArithmetic] at hop
    obtain ⟨hints, rfl⟩ := hop
    obtain ⟨rfl, rfl⟩ := harith hints
    cases hr
    exact .inr ⟨_, _, rfl, rfl, rfl⟩
  | lt | gt | le | ge =>
    simp [binaryType?, BinaryOp.isArithmetic, BinaryOp.isOrdering] at hop
    obtain ⟨hints, rfl⟩ := hop
    obtain ⟨rfl, rfl⟩ := harith hints
    cases hr
    exact .inr ⟨_, _, rfl, rfl, _, rfl, rfl⟩

variable {b : Body} {Q : Trace → Prop} {fin : Outcome} {sc : CallChain} {V : Scene}
  {k lim m i j a a' : Nat} {s : Trace} {S : List Int32}

/-- A word in a block is read. -/
theorem Ends.loadBlock (h : w.Holds s₀ t₀ b Q k lim H s) {B : Block} (hB : B ∈ H.blocks)
    (hj : j < B.kind.words) (hop : b.code[i]? = some (.load (4 * j)))
    (hu : w.Ends s₀ fin H
      (s.on (i + 1) (s.thread.store.memory.word (B.address + 4 * j) :: S))) :
    w.Ends s₀ fin H (s.on i (Int32.ofNat B.address :: S)) := by
  refine load h hop ?_ ?_
  · rw [h.position_block hB]
    exact h.block_inside hB hj
  · rw [h.position_block hB]
    exact hu

/-- A word in a block is written. -/
theorem Ends.storeBlock (h : w.Holds s₀ t₀ b Q k lim H s) {B : Block} (hB : B ∈ H.blocks)
    (hj : j < B.kind.words) (hop : b.code[i]? = some (.store (4 * j)))
    (hu : w.Ends s₀ fin H ((s.withStore { s.thread.store with
      memory := s.thread.store.memory.setWord (B.address + 4 * j) x }).on (i + 1) S)) :
    w.Ends s₀ fin H (s.on i (x :: Int32.ofNat B.address :: S)) := by
  refine store h hop ?_ ?_
  · rw [h.position_block hB]
    exact h.block_inside hB hj
  · rw [h.position_block hB]
    exact hu

namespace Meant

variable (h : w.Meant s₀ t₀ b sc V)

include h

theorem heapOk : w.HeapOk s₀ V.ledger V.trace.thread.store V.trace.heap := h.holds.heap

theorem solid : w.Solid s₀ t₀ := h.holds.solid

/-! ### Variables -/

/-- The value of a variable. -/
theorem loadVar {y : String} {u : VarId}
    (hu : (t₀.facts w.program.classes).Reaches b.levels y u)
    (hcode : CodeAt (w.names b) b.code (Emit.loadVar (w.program.var u)) a a') {pl : Place}
    (hpl : w.program.place? sc u = some pl)
    (hgo : ∀ x, (V.world.vars pl).Stands w.program V.image x (w.program.typeOf u) →
      w.Ends s₀ fin V.ledger (V.trace.on a' (x :: S))) :
    w.Ends s₀ fin V.ledger (V.trace.on a S) := by
  unfold Emit.loadVar at hcode
  obtain ⟨hg, d, hd, hname, hbinding⟩ | ⟨hg, hmem⟩ := h.holds.reaches_cases hu
  · obtain rfl : pl = ⟨none, u⟩ := by
      rw [CheckedProgram.place?, if_pos hg] at hpl
      exact (Option.some.inj hpl).symm
    rw [if_pos hg, hname] at hcode
    obtain ⟨hop, -, rfl⟩ := codeAt_singleton.1 hcode
    obtain ⟨x, hx, hstands⟩ := h.mirrors.global d hd u hbinding
    exact .globalGet h.holds hop hx (hgo x hstands)
  · rw [if_neg (by rw [hg]; exact Bool.false_ne_true)] at hcode
    obtain ⟨x, hx, hok⟩ := h.vars u hmem
    rw [← h.holds.body.slot u hmem] at hx
    split at hcode
    · next hind =>
      rw [if_pos hind] at hok
      obtain ⟨pl', c, q, hpl', hty, -, hc, hq, rfl⟩ := hok
      obtain rfl : pl = pl' := Option.some.inj (hpl.symm.trans hpl')
      obtain ⟨hB, -, hstands⟩ := h.mirrors.cell c pl.var q hq
      obtain ⟨hop, -, hcode⟩ := codeAt_cons.1 hcode
      obtain ⟨hop', -, rfl⟩ := codeAt_singleton.1 hcode
      refine .localGet h.holds hop hx ?_
      refine .loadBlock h.holds hB (j := 0) Nat.one_pos hop' (hgo _ ?_)
      rw [← hc, hty] at hstands
      exact hstands
    · next hind =>
      rw [if_neg hind] at hok
      obtain ⟨hpl', hstands⟩ := hok
      obtain rfl := Option.some.inj (hpl.symm.trans hpl')
      obtain ⟨hop, -, rfl⟩ := codeAt_singleton.1 hcode
      exact .localGet h.holds hop hx (hgo x hstands)

/-- The cells that are passed to a nested function. -/
theorem loadCells {us : List VarId}
    (hcode : CodeAt (w.names b) b.code (us.map fun u => .localGet (w.program.var u).name) a a')
    (hown : ∀ u ∈ us, u ∈ b.vars ∧ (w.program.var u).isIndirect = true)
    (hu : ∀ cs, List.Forall₂ (fun x u => w.CellShows sc V.image x u) cs us →
      w.Ends s₀ fin V.ledger (V.trace.on a' (cs.reverse ++ S))) :
    w.Ends s₀ fin V.ledger (V.trace.on a S) := by
  induction us generalizing a S with
  | nil =>
    obtain rfl := codeAt_nil.1 hcode
    exact hu [] .nil
  | cons u us ih =>
    obtain ⟨hop, -, hcode⟩ := codeAt_cons.1 hcode
    obtain ⟨hmem, hind⟩ := hown u List.mem_cons_self
    obtain ⟨x, hx, hok⟩ := h.vars u hmem
    rw [← h.holds.body.slot u hmem] at hx
    rw [if_pos hind] at hok
    refine .localGet h.holds hop hx ?_
    refine ih hcode (fun u' hu' => hown u' (List.mem_cons_of_mem _ hu')) fun cs hcs => ?_
    have hall := hu (x :: cs) (.cons hok hcs)
    rwa [List.reverse_cons, List.append_assoc] at hall

/-! ### Host functions -/

/-- The store changes, but neither in blocks nor in variables of the module. -/
theorem turns_store {st : Store} (hst : w.HeapOk s₀ V.ledger st V.trace.heap)
    (hmirrors : w.Mirrors V.image V.world V.ledger.blocks st) (m : Nat) :
    w.Turns s₀ b sc m V { V with trace := V.trace.withStore st } :=
  h.turns (h.holds.moves_store hst m) hmirrors (fun _ _ => rfl) rfl

/-- A host function that prints a line leaves the empty reference. -/
theorem print {y : String} {f : HostFunction} (hy : (y, f) ∈ Emit.hostNames)
    (hcode : CodeAt (w.names b) b.code [.call y, .const 0] a a') {xs : List Int32}
    (hxs : xs.length = f.params) {l : String} (hcall : f.call xs.reverse = .ok (.line l))
    {K : Value → Eval (Option Value)}
    (hlead : (K .none).Leads V.world (printed V.trace ++ [l]) fin)
    (hgo : w.Yields s₀ b sc fin m V a' S .none K) :
    w.Ends s₀ fin V.ledger (V.trace.on a (xs ++ S)) := by
  obtain ⟨p, o, hw⟩ := h.compiled
  obtain ⟨hop, -, hcode⟩ := codeAt_cons.1 hcode
  obtain ⟨hop', -, rfl⟩ := codeAt_singleton.1 hcode
  refine .hostLine h.holds hop (hw.linked.host hw.generated hy) hxs hcall ?_
  have ht := h.turns_store (h.heapOk.print (V.trace.thread.store.output.push l))
    (h.mirrors.store (fun _ _ _ _ => rfl) fun _ _ => rfl) m
  refine .const (h.follow ht).holds hop' (hgo _ .none 0 ht ⟨rfl, rfl⟩ ?_)
  have hprinted : printed (V.trace.withStore { V.trace.thread.store with
      output := V.trace.thread.store.output.push l }) = printed V.trace ++ [l] :=
    Array.toList_push
  rw [hprinted]
  exact hlead

/-- A host function that answers leaves a number. -/
theorem answer {y : String} {f : HostFunction} (hy : (y, f) ∈ Emit.hostNames)
    (hcode : CodeAt (w.names b) b.code [.call y] a a') {xs : List Int32}
    (hxs : xs.length = f.params) (hcall : f.call xs.reverse = .ok (.value x))
    {K : Value → Eval (Option Value)} (hlead : (K (.int x)).Leads V.world (printed V.trace) fin)
    (hgo : w.Yields s₀ b sc fin m V a' S .int K) :
    w.Ends s₀ fin V.ledger (V.trace.on a (xs ++ S)) := by
  obtain ⟨p, o, hw⟩ := h.compiled
  obtain ⟨hop, -, rfl⟩ := codeAt_singleton.1 hcode
  exact .hostValue h.holds hop (hw.linked.host hw.generated hy) hxs hcall
    (hgo V (.int x) x (h.refl m) rfl hlead)

/-- A builtin function. -/
theorem builtin {f : Builtin} {args : List Expr} {is : List Code.Instr}
    (his : Emit.builtinCode f args = some is) (hcode : CodeAt (w.names b) b.code is a a')
    {ts : List Ty} (hts : List.Forall₂ (fun e t => e.ty = some t ∧ takes f t) args ts)
    {es : List (Value × Int32)}
    (hes : List.Forall₂ (fun e t => e.1.Stands w.program V.image e.2 t) es ts)
    (harity : args.length = f.arity) {K : Value → Eval (Option Value)}
    (hlead : (Eval.reply (f.apply (es.map Prod.fst)) >>= K).Leads V.world (printed V.trace) fin)
    (hgo : w.Yields s₀ b sc fin m V a' S (builtinType f) K) :
    w.Ends s₀ fin V.ledger (V.trace.on a ((es.map Prod.snd).reverse ++ S)) := by
  have hlength : es.length = args.length := hes.length_eq.trans hts.length_eq.symm
  -- All arguments of the other functions are integers.
  have hints : (∀ t, takes f t → t = .int) → ∀ e ∈ es, e.1 = .int e.2 := by
    intro hint e he
    obtain ⟨t, ht, hstands⟩ := exists_of_forall₂ hes he
    obtain ⟨arg, -, -, htakes⟩ := exists_of_forall₂ hts.flip ht
    obtain rfl := hint t htakes
    exact hstands
  have hanswer : ∀ {y : String} {g : HostFunction} {v : Int32}, (y, g) ∈ Emit.hostNames →
      is = [.call y] → es.length = g.params → g.call (es.map Prod.snd) = .ok (.value v) →
      builtinType f = .int → f.apply (es.map Prod.fst) = some ([], .ok (.int v)) →
      w.Ends s₀ fin V.ledger (V.trace.on a ((es.map Prod.snd).reverse ++ S)) := by
    rintro y g v hy rfl hparams hcall hty happly
    rw [happly, Eval.leads_reply_ok, List.append_nil] at hlead
    refine h.answer (m := m) hy hcode ?_ ?_ hlead (hty ▸ hgo)
    · rw [List.length_reverse, List.length_map, hparams]
    · rw [List.reverse_reverse, hcall]
  have hprint : ∀ {y l : String} {g : HostFunction}, (y, g) ∈ Emit.hostNames →
      is = [.call y, .const 0] → es.length = g.params →
      g.call (es.map Prod.snd) = .ok (.line l) → builtinType f = .none →
      f.apply (es.map Prod.fst) = some ([l], .ok .none) →
      w.Ends s₀ fin V.ledger (V.trace.on a ((es.map Prod.snd).reverse ++ S)) := by
    rintro y l g hy rfl hparams hcall hty happly
    rw [happly, Eval.leads_reply_ok] at hlead
    refine h.print (m := m) hy hcode ?_ ?_ hlead (hty ▸ hgo)
    · rw [List.length_reverse, List.length_map, hparams]
    · rw [List.reverse_reverse, hcall]
  have hone : f.arity = 1 → ∃ e, es = [e] := fun hone =>
    List.length_eq_one_iff.1 (hlength.trans (harity.trans hone))
  have htwo : f.arity = 2 → ∃ e e', es = [e, e'] := fun htwo =>
    List.length_eq_two.1 (hlength.trans (harity.trans htwo))
  cases f with
  | print =>
    obtain ⟨⟨v, x⟩, rfl⟩ := hone rfl
    obtain ⟨t, rfl, hstands⟩ : ∃ t, ts = [t] ∧ v.Stands w.program V.image x t := by
      obtain _ | ⟨hstands, ⟨⟩⟩ := hes
      exact ⟨_, rfl, hstands⟩
    obtain _ | ⟨⟨hty, htakes⟩, ⟨⟩⟩ := hts
    simp only [Emit.builtinCode, List.head?_cons, Option.bind_some, hty] at his
    cases t with
    | int =>
      obtain rfl : v = .int x := hstands
      exact hprint (g := .printNum) (by simp [Emit.hostNames]) (Option.some.inj his).symm rfl rfl
        rfl rfl
    | bool =>
      obtain ⟨z, rfl, rfl⟩ := hstands
      refine hprint (g := .printBool) (by simp [Emit.hostNames]) (Option.some.inj his).symm rfl
        ?_ rfl rfl
      cases z <;> rfl
    | none =>
      obtain ⟨rfl, rfl⟩ := hstands
      exact hprint (g := .printNone) (by simp [Emit.hostNames]) (Option.some.inj his).symm rfl rfl
        rfl rfl
    | object c => cases htakes
  | abs =>
    obtain ⟨⟨v, x⟩, rfl⟩ := hone rfl
    obtain rfl : v = .int x := hints (fun _ h => h) _ List.mem_cons_self
    exact hanswer (g := .abs) (by simp [Emit.hostNames]) (Option.some.inj his).symm rfl rfl rfl rfl
  | min =>
    obtain ⟨⟨v, x⟩, ⟨v', x'⟩, rfl⟩ := htwo rfl
    obtain rfl : v = .int x := hints (fun _ h => h) _ List.mem_cons_self
    obtain rfl : v' = .int x' := hints (fun _ h => h) _ (List.mem_cons_of_mem _ List.mem_cons_self)
    exact hanswer (g := .min) (by simp [Emit.hostNames]) (Option.some.inj his).symm rfl rfl rfl rfl
  | max =>
    obtain ⟨⟨v, x⟩, ⟨v', x'⟩, rfl⟩ := htwo rfl
    obtain rfl : v = .int x := hints (fun _ h => h) _ List.mem_cons_self
    obtain rfl : v' = .int x' := hints (fun _ h => h) _ (List.mem_cons_of_mem _ List.mem_cons_self)
    exact hanswer (g := .max) (by simp [Emit.hostNames]) (Option.some.inj his).symm rfl rfl rfl rfl
  | pow =>
    obtain ⟨⟨v, x⟩, ⟨v', x'⟩, rfl⟩ := htwo rfl
    obtain rfl : v = .int x := hints (fun _ h => h) _ List.mem_cons_self
    obtain rfl : v' = .int x' := hints (fun _ h => h) _ (List.mem_cons_of_mem _ List.mem_cons_self)
    obtain rfl := Option.some.inj his
    by_cases hneg : x' < 0
    · obtain ⟨p, o, hw⟩ := h.compiled
      obtain ⟨hop, -, -⟩ := codeAt_cons.1 hcode
      have hcall : HostFunction.pow.call [x, x'] = .error (.invalidArgument HostFunction.pow.field x') :=
        if_pos hneg
      have happly : Builtin.pow.apply [.int x, .int x']
          = some ([], .error (.invalidArgument Builtin.pow.name x')) := by
        simp only [Builtin.apply, if_pos hneg]
      rw [show [(Value.int x, x), (Value.int x', x')].map Prod.fst = [.int x, .int x'] from rfl,
        happly, Eval.leads_reply_error, List.append_nil] at hlead
      exact .hostTrap h.holds hop (hw.linked.host hw.generated
        (by simp [Emit.hostNames] : (_, HostFunction.pow) ∈ Emit.hostNames)) rfl hcall hlead
    · refine hanswer (g := .pow) (v := powWord x x'.toInt.toNat) (by simp [Emit.hostNames]) rfl rfl
        (if_neg hneg) rfl ?_
      simp only [List.map_cons, List.map_nil, Builtin.apply, if_neg hneg, powWord_eq]

/-- The guard lets a receiver pass that leads to an object. -/
theorem guard {v : Value} {c : String} (hv : v.Stands w.program V.image x (.object c))
    (hop : b.code[i]? = some (.call (w.module.index Emit.checkInitName)))
    {K : Nat → Eval (Option Value)}
    (hlead : (Eval.follow v >>= K).Leads V.world (printed V.trace) fin)
    (hu : ∀ (r : Nat) (B : Block) (l : ClassLayout), V.image.objects[r]? = some B →
      x = Int32.ofNat B.address → B.kind = .object l → w.program.classes.Below l.name c →
      0 < x → (K r).Leads V.world (printed V.trace) fin →
      w.Ends s₀ fin V.ledger (V.trace.on (i + 1) (x :: S))) :
    w.Ends s₀ fin V.ledger (V.trace.on i (x :: S)) := by
  obtain ⟨p, o, hw⟩ := h.compiled
  have hf : w.linked.import? (w.module.index Emit.checkInitName) = some .checkInit :=
    hw.linked.host hw.generated (by simp [Emit.hostNames])
  obtain ⟨rfl, rfl⟩ | ⟨r, B, l, rfl, hr, rfl, hkind, hbelow⟩ := hv
  · rw [Eval.follow, Eval.leads_trap] at hlead
    show w.Ends s₀ fin V.ledger (V.trace.on i ([0] ++ S))
    exact .hostTrap h.holds hop hf rfl rfl hlead
  · rw [Eval.follow, pure_bind] at hlead
    have hpos := h.heapOk.address_pos h.solid.size h.solid.base.1 (h.mirrors.object r B hr).1
    have hcall : HostFunction.checkInit.call [Int32.ofNat B.address]
        = .ok (.value (Int32.ofNat B.address)) := if_neg (Int32.not_le.2 hpos)
    show w.Ends s₀ fin V.ledger (V.trace.on i ([Int32.ofNat B.address] ++ S))
    exact .hostValue h.holds hop hf rfl hcall (hu r B l hr rfl hkind hbelow hpos hlead)

/-! ### Temporaries -/

/-- A local that the generator made up gets a value. -/
theorem setMade {y : String} {rest : List Char} (hy : y.toList = '#' :: rest)
    (hmem : y ∈ (w.names b).frame) (hop : b.code[i]? = some (.localSet ((w.names b).slot y)))
    (hm : ∀ j < m, Emit.receiverName j ≠ y)
    (hu : ∀ s', s' = V.trace.withLocal ((w.names b).slot y) x →
      w.Turns s₀ b sc m V { V with trace := s' } →
      s'.thread.frame.locals[(w.names b).slot y]? = some x →
      w.Ends s₀ fin V.ledger (s'.on (i + 1) S)) :
    w.Ends s₀ fin V.ledger (V.trace.on i (x :: S)) := by
  have hlt := h.locals y hmem
  refine .localSet h.holds hop hlt (hu _ rfl ?_ (Array.getElem?_setIfInBounds_self_of_lt hlt))
  refine h.turns (h.holds.moves_local (fun u hu => ?_) fun j hj hmem' heq => ?_)
    (h.mirrors.store (fun _ _ _ _ => rfl) fun _ _ => rfl) (fun u hu => ?_)
    Array.size_setIfInBounds
  · exact h.holds.body.made y rest hy hmem u hu
  · exact hm j hj (Names.slot_inj hmem hmem' heq).symm
  · exact Array.getElem?_setIfInBounds_ne (h.holds.body.made y rest hy hmem u hu)

end Meant

end Setting

end ObjLang
