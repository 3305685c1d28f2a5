import ObjLang.Proofs.Emit.Flow

/-!
# ObjLang.Proofs.Emit.Blocks — the statement lists in some statements

A statement list in some statements, at any depth, has its place in their code, and control comes to
this place only at its start.  The `return` instructions in the code are those at the ends of `return`
statements.
-/

namespace ObjLang

/-! ### Statement lists -/

/-- The statement lists directly in a statement. -/
def Stmt.blocks : Stmt → List (List Stmt)
  | .cond first others otherwise _ => first.body :: (others.map Branch.body ++ [otherwise])
  | .loop branch _ => [branch.body]
  | _ => []

/-- A statement list is the list of some statements itself, or stands in it at some depth. -/
inductive Stmt.HasBlock (ss : List Stmt) : List Stmt → Prop where
  | whole : HasBlock ss ss
  | part {s : Stmt} {bs bs' : List Stmt} : HasBlock ss bs → s ∈ bs → bs' ∈ s.blocks →
    HasBlock ss bs'

theorem Branch.sizeOf_body (b : Branch) : sizeOf b.body < sizeOf b := by
  cases b
  simp only [Branch.body, Branch.mk.sizeOf_spec]
  omega

theorem Stmt.sizeOf_block {s : Stmt} {bs : List Stmt} (h : bs ∈ s.blocks) :
    sizeOf bs < sizeOf s := by
  cases s with
  | assign _ _ _ => exact absurd h List.not_mem_nil
  | expr _ _ => exact absurd h List.not_mem_nil
  | ret _ _ => exact absurd h List.not_mem_nil
  | pass _ => exact absurd h List.not_mem_nil
  | cond first others otherwise span =>
    simp only [Stmt.cond.sizeOf_spec]
    simp only [blocks, List.mem_cons, List.mem_append, List.mem_map, List.not_mem_nil,
      or_false] at h
    obtain rfl | ⟨b, hb, rfl⟩ | rfl := h
    · have hlt := first.sizeOf_body
      omega
    · have hlt := b.sizeOf_body
      have hmem := List.sizeOf_lt_of_mem hb
      omega
    · omega
  | loop branch span =>
    obtain rfl := List.mem_singleton.1 h
    have hlt := branch.sizeOf_body
    simp only [Stmt.loop.sizeOf_spec]
    omega

namespace Emit

variable {c : CheckedProgram} {N : Names} {arr : Array Op} {s : Stmt} {ss bs : List Stmt}
  {n n' a a' b b' i j q exit : Nat}

/-! ### Code in pieces -/

/-- A position in the code of branches lies in that of one of them. -/
theorem exists_branchAt {brs : List Branch} (h : BranchesAt c N arr exit brs n a n' a')
    (ha : a ≤ q) (hq : q < a') : ∃ before br behind n₁ i n₂ j, brs = before ++ br :: behind ∧
      BranchesAt c N arr exit before n a n₁ i ∧ BranchAt c N arr exit br n₁ i n₂ j ∧
      BranchesAt c N arr exit behind n₂ j n' a' ∧ i ≤ q ∧ q < j := by
  induction brs generalizing n a with
  | nil =>
    obtain ⟨rfl, -⟩ := h
    exact absurd hq (Nat.not_lt.2 ha)
  | cons br brs ih =>
    obtain ⟨n₁, k, hat, hats⟩ := h
    obtain hk | hk := Nat.lt_or_ge q k
    · exact ⟨[], br, brs, n, a, n₁, k, rfl, ⟨rfl, rfl⟩, hat, hats, ha, hk⟩
    · obtain ⟨before, br', behind, n₂, i, n₃, j, rfl, hbefore, hrest⟩ := ih hats hk
      exact ⟨br :: before, br', behind, n₂, i, n₃, j, rfl, ⟨n₁, k, hat, hbefore⟩, hrest⟩

/-! ### Places of statement lists -/

/-- In the code of a statement between two positions, that of a statement list directly in it lies
between two other ones. -/
inductive PartAt (c : CheckedProgram) (N : Names) (arr : Array Op) :
    Stmt → (a a' : Nat) → List Stmt → (b b' : Nat) → Prop where
  | loop {test : Expr} {body : List Stmt} {span : Span} {n a n₁ i n' b' : Nat} :
    ExprAt c N arr test n a n₁ i → OpsAt arr i [.eqz, .jumpIf (b' + 1)] →
    BlockAt c N arr body n₁ (i + 2) n' b' → OpsAt arr b' [.jump a] →
    PartAt c N arr (.loop (.mk test body) span) a (b' + 1) body (i + 2) b'
  | branch {first : Branch} {others before behind : List Branch} {test : Expr}
    {body otherwise : List Stmt} {span : Span} {n a n₁ i n₂ j n₃ b' n₄ k n' a' : Nat} :
    first :: others = before ++ .mk test body :: behind →
    BranchesAt c N arr a' before n a n₁ i → ExprAt c N arr test n₁ i n₂ j →
    OpsAt arr j [.jumpUnless (b' + 1)] → BlockAt c N arr body n₂ (j + 1) n₃ b' →
    OpsAt arr b' [.jump a'] → BranchesAt c N arr a' behind n₃ (b' + 1) n₄ k →
    BlockAt c N arr otherwise n₄ k n' a' →
    PartAt c N arr (.cond first others otherwise span) a a' body (j + 1) b'
  | otherwise {first : Branch} {others : List Branch} {otherwise : List Stmt} {span : Span}
    {n a n₁ i n' a' : Nat} : BranchesAt c N arr a' (first :: others) n a n₁ i →
    BlockAt c N arr otherwise n₁ i n' a' →
    PartAt c N arr (.cond first others otherwise span) a a' otherwise i a'

/-- In the code of some statements between two positions, that of a statement list in them lies
between two other ones. -/
inductive BlockStandsAt (c : CheckedProgram) (N : Names) (arr : Array Op) (ss : List Stmt)
    (a a' : Nat) : List Stmt → (b b' : Nat) → Prop where
  | whole {n n' : Nat} : BlockAt c N arr ss n a n' a' → BlockStandsAt c N arr ss a a' ss a a'
  | part {before behind bs : List Stmt} {s : Stmt} {n n₁ n₂ n' i j k k' b b' : Nat} :
    BlockStandsAt c N arr ss a a' (before ++ s :: behind) k k' →
    BlockAt c N arr before n k n₁ i → StmtAt c N arr s n₁ i n₂ j →
    BlockAt c N arr behind n₂ j n' k' → PartAt c N arr s i j bs b b' →
    BlockStandsAt c N arr ss a a' bs b b'

namespace PartAt

theorem blockAt (h : PartAt c N arr s a a' bs b b') : ∃ n n', BlockAt c N arr bs n b n' b' := by
  cases h with
  | loop _ _ hbody _ => exact ⟨_, _, hbody⟩
  | branch _ _ _ _ hbody _ _ _ => exact ⟨_, _, hbody⟩
  | otherwise _ hbody => exact ⟨_, _, hbody⟩

theorem mem_blocks (h : PartAt c N arr s a a' bs b b') : bs ∈ s.blocks := by
  cases h with
  | loop _ _ _ _ => exact List.mem_singleton_self _
  | branch heq _ _ _ _ _ _ _ =>
    rw [Stmt.blocks, ← List.cons_append, ← List.map_cons, heq]
    exact List.mem_append_left _
      (List.mem_map_of_mem (f := Branch.body) (List.mem_append_right _ List.mem_cons_self))
  | otherwise _ _ =>
    exact List.mem_cons_of_mem _ (List.mem_append_right _ (List.mem_singleton_self _))

/-- What stands in the statement list stands in the statement. -/
theorem standsAt {s' : Stmt} (h : PartAt c N arr s a a' bs b b')
    (hs : StandsAt c N arr bs b s' i j) : StandsAt c N arr (s :: ss) a s' i j := by
  cases h with
  | loop htest hops _ _ => exact .loop htest hops hs
  | branch heq hbefore htest hskip _ _ _ _ => exact .branch heq hbefore htest hskip hs
  | otherwise hall _ => exact .otherwise hall hs

theorem bounds (h : PartAt c N arr s a a' bs b b') : a ≤ b ∧ b' ≤ a' := by
  cases h with
  | loop htest _ _ _ =>
    have h₁ := exprAt_le htest
    omega
  | branch _ hbefore htest _ hbody _ hbehind hotherwise =>
    have h₁ := branchesAt_le hbefore
    have h₂ := exprAt_le htest
    have h₃ := branchesAt_le hbehind
    have h₄ := blockAt_le hotherwise
    omega
  | otherwise hall _ => exact ⟨branchesAt_le hall, Nat.le_refl _⟩

/-- Control comes to a statement list in a statement only at its start. -/
theorem isSealed (h : PartAt c N arr s a a' bs b b') (hs : Sealed arr a a') :
    Sealed arr b b' := by
  obtain ⟨hle, hle'⟩ := h.bounds
  cases h with
  | loop htest hops hbody hback =>
    obtain ⟨heqz, hops⟩ := opsAt_cons.1 hops
    obtain ⟨hout, -⟩ := opsAt_cons.1 hops
    obtain ⟨hback, -⟩ := opsAt_cons.1 hback
    have hlt := exprAt_le htest
    refine hs.inside hle hle' ?_ (.jump hback (.inl (by omega)))
    exact ((exprAt_straight htest).flowsTo.imp fun j hj => by omega).append
      ((FlowsTo.next heqz rfl (by omega)).append (.jumpIf hout (by omega) (by omega)))
  | branch _ hbefore htest hskip hbody hout hbehind hotherwise =>
    obtain ⟨hskip, -⟩ := opsAt_cons.1 hskip
    obtain ⟨hout, -⟩ := opsAt_cons.1 hout
    have h₁ := branchesAt_le hbefore
    have h₂ := exprAt_le htest
    have h₃ := branchesAt_le hbehind
    have h₄ := blockAt_le hotherwise
    refine hs.inside hle hle' ?_ ?_
    · exact ((branchesAt_flowsTo hbefore).imp fun j hj => by omega).append
        (((exprAt_straight htest).flowsTo.imp fun j hj => by omega).append
          (.jumpUnless hskip (by omega) (by omega)))
    · exact (FlowsTo.jump hout (by omega)).append
        (((branchesAt_flowsTo hbehind).imp fun j hj => by omega).append
          ((blockAt_flowsTo hotherwise).imp fun j hj => by omega))
  | otherwise hall _ =>
    exact hs.inside hle hle' ((branchesAt_flowsTo hall).imp fun j hj => by omega) .nil

end PartAt

theorem exists_partAt (h : StmtAt c N arr s n a n' a') (hbs : bs ∈ s.blocks) :
    ∃ b b', PartAt c N arr s a a' bs b b' := by
  cases s with
  | assign _ _ _ => exact absurd hbs List.not_mem_nil
  | expr _ _ => exact absurd hbs List.not_mem_nil
  | ret _ _ => exact absurd hbs List.not_mem_nil
  | pass _ => exact absurd hbs List.not_mem_nil
  | cond first others otherwise span =>
    obtain ⟨n₁, n₂, b₁, b₂, hatf, hato, hatw⟩ := h
    have hall : BranchesAt c N arr a' (first :: others) (n + 1) a n₂ b₂ := ⟨n₁, b₁, hatf, hato⟩
    rw [Stmt.blocks, ← List.cons_append, ← List.map_cons, List.mem_append] at hbs
    obtain hbs | hbs := hbs
    · obtain ⟨br, hbr, rfl⟩ := List.mem_map.1 hbs
      obtain ⟨before, behind, heq⟩ := List.append_of_mem hbr
      obtain ⟨n₃, i, hbefore, n₄, j, hat, hbehind⟩ := branchesAt_append.1 (heq ▸ hall)
      cases br with
      | mk test body =>
        obtain ⟨n₅, k, l, htest, hskip, hbody, hout, rfl⟩ := hat
        exact ⟨_, _, .branch heq hbefore htest hskip hbody hout hbehind hatw⟩
    · obtain rfl := List.mem_singleton.1 hbs
      exact ⟨_, _, .otherwise hall hatw⟩
  | loop br span =>
    cases br with
    | mk test body =>
      obtain ⟨n₁, b₁, b₂, htest, hops, hbody, hback, rfl⟩ := h
      obtain rfl := List.mem_singleton.1 hbs
      exact ⟨_, _, .loop htest hops hbody hback⟩

namespace BlockStandsAt

theorem blockAt (h : BlockStandsAt c N arr ss a a' bs b b') :
    ∃ n n', BlockAt c N arr bs n b n' b' := by
  cases h with
  | whole h => exact ⟨_, _, h⟩
  | part _ _ _ _ hpart => exact hpart.blockAt

theorem bounds (h : BlockStandsAt c N arr ss a a' bs b b') : a ≤ b ∧ b' ≤ a' := by
  induction h with
  | whole _ => exact ⟨Nat.le_refl a, Nat.le_refl a'⟩
  | part _ hbefore _ hbehind hpart ih =>
    have h₁ := blockAt_le hbefore
    have h₂ := blockAt_le hbehind
    have h₃ := hpart.bounds
    omega

/-- Control comes to a statement list in some statements only at its start. -/
theorem isSealed (h : BlockStandsAt c N arr ss a a' bs b b') (hs : Sealed arr a a') :
    Sealed arr b b' := by
  induction h with
  | whole _ => exact hs
  | part _ hbefore hat hbehind hpart ih =>
    have h₁ := blockAt_le hbefore
    have h₂ := stmtAt_le hat
    have h₃ := blockAt_le hbehind
    exact hpart.isSealed (ih.inside h₁ h₃ ((blockAt_flowsTo hbefore).imp fun j hj => by omega)
      ((blockAt_flowsTo hbehind).imp fun j hj => by omega))

end BlockStandsAt

/-- Every statement list in some statements has its place in their code. -/
theorem exists_blockStandsAt (h : BlockAt c N arr ss n a n' a') (hbs : Stmt.HasBlock ss bs) :
    ∃ b b', BlockStandsAt c N arr ss a a' bs b b' := by
  induction hbs with
  | whole => exact ⟨a, a', .whole h⟩
  | part _ hs hbs ih =>
    obtain ⟨k, k', hst⟩ := ih
    obtain ⟨before, behind, rfl⟩ := List.append_of_mem hs
    obtain ⟨m, m', hat⟩ := hst.blockAt
    obtain ⟨n₁, i, hbefore, n₂, j, hs, hbehind⟩ := blockAt_append.1 hat
    obtain ⟨b, b', hpart⟩ := exists_partAt hs hbs
    exact ⟨b, b', .part hst hbefore hs hbehind hpart⟩

/-! ### Instructions that return -/

/-- A statement in a part of one of some statements is in these. -/
theorem occursIn_of_part {s' : Stmt} (hs : s ∈ ss) (hbs : ∀ u ∈ bs, u ∈ s.parts)
    (h : Stmt.OccursIn bs s') : Stmt.OccursIn ss s' := by
  induction h with
  | here hu => exact .part (.here hs) (hbs _ hu)
  | part _ hu ih => exact .part ih hu

theorem occursIn_tail {s' : Stmt} (h : Stmt.OccursIn ss s') : Stmt.OccursIn (s :: ss) s' := by
  induction h with
  | here hu => exact .here (List.mem_cons_of_mem _ hu)
  | part _ hu ih => exact .part ih hu

theorem StandsAt.occursIn {s' : Stmt} (h : StandsAt c N arr ss a s' i j) :
    Stmt.OccursIn ss s' := by
  induction h with
  | head _ => exact .here List.mem_cons_self
  | tail _ _ ih => exact occursIn_tail ih
  | loop _ _ _ ih => exact occursIn_of_part List.mem_cons_self (fun _ hu => hu) ih
  | branch heq _ _ _ _ ih =>
    refine occursIn_of_part List.mem_cons_self (fun u hu => ?_) ih
    rw [Stmt.parts, ← List.flatMap_cons, heq]
    exact List.mem_append_left _ (List.mem_flatMap.2 ⟨_, List.mem_append_right _ List.mem_cons_self, hu⟩)
  | otherwise _ _ ih =>
    exact occursIn_of_part List.mem_cons_self (fun _ hu => List.mem_append_right _ hu) ih

/-- A `return` instruction in the code of a statement ends a `return` statement: this one, or one in
a statement list in it. -/
theorem stmtAt_ret (h : StmtAt c N arr s n a n' a') (ha : a ≤ q) (hq : q < a')
    (hop : arr[q]? = some .ret) : (∃ e span, s = .ret e span ∧ q + 1 = a') ∨
      ∃ bs b b', PartAt c N arr s a a' bs b b' ∧ b ≤ q ∧ q < b' := by
  have hother : ∀ {k : Nat} {op : Op}, arr[k]? = some op → op ≠ .ret → q ≠ k := by
    rintro k op hk hne rfl
    exact hne (Option.some.inj (hk.symm.trans hop))
  cases s with
  | assign g e span => exact absurd hop ((assignAt_straight h).not_ret ha hq)
  | expr e span =>
    obtain ⟨b, he, hcode⟩ := h
    exact absurd hop (((exprAt_straight he).append (.ofCode hcode rfl)).not_ret ha hq)
  | pass span =>
    obtain ⟨rfl, -⟩ := h
    exact absurd hq (Nat.not_lt.2 ha)
  | ret e span =>
    obtain ⟨b, he, hcode⟩ := h
    obtain ⟨-, -, rfl⟩ := codeAt_singleton.1 hcode
    obtain hb | hb := Nat.lt_or_ge q b
    · exact absurd hop ((exprAt_straight he).not_ret ha hb)
    · exact .inl ⟨e, span, rfl, by omega⟩
  | cond first others otherwise span =>
    obtain ⟨n₁, n₂, b₁, b₂, hatf, hato, hatw⟩ := h
    have hall : BranchesAt c N arr a' (first :: others) (n + 1) a n₂ b₂ := ⟨n₁, b₁, hatf, hato⟩
    obtain hb | hb := Nat.lt_or_ge q b₂
    · obtain ⟨before, ⟨test, body⟩, behind, n₃, i, n₄, j, heq, hbefore, hat, hbehind, hi, hj⟩ :=
        exists_branchAt hall ha hb
      obtain ⟨n₅, k, l, htest, hskip, hbody, hout, rfl⟩ := hat
      have hk := hother (opsAt_cons.1 hskip).1 (by rintro ⟨⟩)
      have hl := hother (opsAt_cons.1 hout).1 (by rintro ⟨⟩)
      obtain htop | htop := Nat.lt_or_ge q k
      · exact absurd hop ((exprAt_straight htest).not_ret hi htop)
      · exact .inr ⟨body, _, _, .branch heq hbefore htest hskip hbody hout hbehind hatw,
          by omega, by omega⟩
    · exact .inr ⟨otherwise, _, _, .otherwise hall hatw, hb, hq⟩
  | loop br span =>
    cases br with
    | mk test body =>
      obtain ⟨n₁, k, l, htest, hops, hbody, hback, rfl⟩ := h
      have hk := hother (opsAt_cons.1 hops).1 (by rintro ⟨⟩)
      have hk' := hother (opsAt_cons.1 (opsAt_cons.1 hops).2).1 (by rintro ⟨⟩)
      have hl := hother (opsAt_cons.1 hback).1 (by rintro ⟨⟩)
      obtain htop | htop := Nat.lt_or_ge q k
      · exact absurd hop ((exprAt_straight htest).not_ret ha htop)
      · exact .inr ⟨body, _, _, .loop htest hops hbody hback, by omega, by omega⟩

/-- A `return` instruction in the code of some statements ends a `return` statement in them. -/
theorem exists_standsAt_ret {ss : List Stmt} {n a n' a' : Nat} (h : BlockAt c N arr ss n a n' a')
    (ha : a ≤ q) (hq : q < a') (hop : arr[q]? = some .ret) :
    ∃ e span i, StandsAt c N arr ss a (.ret e span) i (q + 1) := by
  cases ss with
  | nil =>
    obtain ⟨rfl, -⟩ := h
    exact absurd hq (Nat.not_lt.2 ha)
  | cons s ss =>
    obtain ⟨n₁, k, hat, hats⟩ := h
    obtain hk | hk := Nat.lt_or_ge q k
    · obtain ⟨e, span, rfl, rfl⟩ | ⟨bs, b, b', hpart, hb, hb'⟩ := stmtAt_ret hat ha hk hop
      · exact ⟨e, span, a, .head hat⟩
      · obtain ⟨m, m', hbs⟩ := hpart.blockAt
        have hlt := Stmt.sizeOf_block hpart.mem_blocks
        obtain ⟨e, span, i, hst⟩ := exists_standsAt_ret hbs hb hb' hop
        exact ⟨e, span, i, hpart.standsAt hst⟩
    · obtain ⟨e, span, i, hst⟩ := exists_standsAt_ret hats hk hq hop
      exact ⟨e, span, i, .tail hat hst⟩
termination_by sizeOf ss
decreasing_by
  all_goals
    subst_vars
    simp only [List.cons.sizeOf_spec]
    omega

/-! ### Functions -/

/-- The code of a function holds its statements between two positions: straight-line code leads to
them, and one more instruction stands behind them. -/
structure BodyAt (c : CheckedProgram) (N : Names) (arr : Array Op) (ss : List Stmt) (a b : Nat) :
    Prop where
  block : ∃ n n', BlockAt c N arr ss n a n' b
  before : Straight arr 0 a
  size : arr.size = b + 1
  behind : Straight arr b (b + 1)

theorem bodyAt_definition {m : Code.Module} {L : LinkedModule} {d : FunDef} {g : Code.Func}
    (hg : CodeOf c m L d g arr) : ∃ b, BodyAt c (m.names g) arr d.body (c.prologue d) b ∧
      arr[b]? = some (.const 0) := by
  obtain ⟨b, n, b', hbox, hinit, hblock, hop, hsize⟩ := hg.layout
  exact ⟨b', ⟨⟨0, n, hblock⟩, (straight_boxCode hbox).append (straight_initCode hinit), hsize,
    .single hop rfl⟩, hop⟩

theorem bodyAt_entry (h : EntryAt c N arr) : ∃ b, BodyAt c N arr c.program.body 0 b := by
  obtain ⟨n, b, hblock, hlast⟩ := h
  have hsize := (codeAt_singleton.1 hlast).2.2
  refine ⟨b, ⟨0, n, hblock⟩, .nil, hsize, hsize ▸ .ofCode hlast ?_⟩
  split <;> rfl

namespace BodyAt

theorem isSealed (h : BodyAt c N arr ss a b) : Sealed arr a b := by
  obtain ⟨n, n', hblock⟩ := h.block
  have hle := blockAt_le hblock
  refine (Sealed.all arr).inside (Nat.zero_le a) (by rw [h.size]; omega)
    (h.before.flowsTo.imp fun j hj => .inl hj.2) ?_
  rw [h.size]
  exact h.behind.flowsTo.imp fun j hj => by omega

/-- Control that has come into a statement list that returns stays there. -/
theorem stays (h : BodyAt c N arr ss a b) (hbs : BlockStandsAt c N arr ss a b bs i j)
    (hret : Stmt.bodyReturns bs = true) {r : Nat} (hq : FlowsOn arr 0 q) (hi : i ≤ q) (hj : q < j)
    (hr : FlowsOn arr q r) : i ≤ r ∧ r < j := by
  obtain ⟨m, m', hblock⟩ := hbs.blockAt
  exact (hbs.isSealed h.isSealed).stays (blockAt_confined hblock hret) hq hi hj hr

/-- Control does not come behind statements that return. -/
theorem lt_end (h : BodyAt c N arr ss a b) (hret : Stmt.bodyReturns ss = true)
    (hq : FlowsOn arr 0 q) : q < b := by
  obtain ⟨n, n', hblock⟩ := h.block
  exact ((h.before.flowsTo.upTo (Nat.zero_le a)).confined (blockAt_confined hblock hret)
    (Nat.zero_le a) (blockAt_le hblock) q hq).2

end BodyAt

end Emit

end ObjLang
