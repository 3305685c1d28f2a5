import ObjLang.Proofs.Emit.Expr

/-!
# ObjLang.Proofs.Emit.Stmt — the code of checked statements

Regions dissolve into jumps when code is linked.  A statement opens and closes its own regions, so
linking leaves the open ones as they were; only the branches of a conditional leave jumps to its end
waiting, which get their target there.
-/

namespace ObjLang

open Code (Instr)

/-! ### Jumps that get their target later -/

theorem patch_cons (t i : Nat) (is : List Nat) (code : Array Op) :
    patch t (i :: is) code = patch t is (code.modify i (Op.withTarget t)) :=
  rfl

theorem patch_append (t : Nat) (is js : List Nat) (code : Array Op) :
    patch t (is ++ js) code = patch t js (patch t is code) := by
  simp [patch, List.foldl_append]

theorem modify_at (f : Op → Op) (pre : Array Op) (op : Op) (post : Array Op) :
    (pre ++ #[op] ++ post).modify pre.size f = pre ++ #[f op] ++ post := by
  ext i h₁ h₂
  · simp
  · rw [Array.getElem_modify]
    simp only [Array.append_assoc, Array.getElem_append]
    split
    · next hi =>
      have hlt : ¬ i < pre.size := by omega
      have hzero : i - pre.size < 1 := by omega
      simp [hlt, hzero]
    · next hi =>
      by_cases hlt : i < pre.size
      · simp [hlt]
      · have hpos : ¬ i - pre.size < 1 := by omega
        simp [hlt, hpos]

/-- Code from a position on with jumps at some places that wait for their target. -/
structure Waits (a : Nat) (ops : Nat → List Op) (waiting : List Nat) : Prop where
  length : ∀ t, (ops t).length = (ops 0).length
  patch : ∀ (t : Nat) (pre post : Array Op), pre.size = a →
    patch t waiting (pre ++ (ops 0).toArray ++ post) = pre ++ (ops t).toArray ++ post

theorem Waits.none (a : Nat) (ops : List Op) : Waits a (fun _ => ops) [] :=
  ⟨fun _ => rfl, fun _ _ _ _ => rfl⟩

theorem Waits.one (a : Nat) (jump : Nat → Op) (h : ∀ t, (jump 0).withTarget t = jump t) :
    Waits a (fun t => [jump t]) [a] := by
  refine ⟨fun _ => rfl, ?_⟩
  rintro t pre post rfl
  rw [patch_cons, modify_at, h]
  rfl

theorem Waits.append {a : Nat} {ops ops' : Nat → List Op} {ws ws' : List Nat}
    (h : Waits a ops ws) (h' : Waits (a + (ops 0).length) ops' ws') :
    Waits a (fun t => ops t ++ ops' t) (ws' ++ ws) := by
  refine ⟨fun t => by simp [h.length t, h'.length t], ?_⟩
  intro t pre post hpre
  have hsize : (pre ++ (ops 0).toArray).size = a + (ops 0).length := by simp [hpre]
  have hlast := h'.patch t (pre ++ (ops 0).toArray) post hsize
  have hfirst := h.patch t pre ((ops' t).toArray ++ post) hpre
  rw [patch_append]
  have hassoc : pre ++ (ops 0 ++ ops' 0).toArray ++ post
      = pre ++ (ops 0).toArray ++ (ops' 0).toArray ++ post := by
    simp [Array.append_assoc]
  have hassoc' : pre ++ (ops t ++ ops' t).toArray ++ post
      = pre ++ (ops t).toArray ++ ((ops' t).toArray ++ post) := by
    apply Array.ext'
    simp
  rw [hassoc, hlast, hassoc', ← hfirst, Array.append_assoc]

/-! ### Linking part by part -/

section

variable {m : Code.Module} {f : Code.Func} {l l₁ l₂ : LinkState}

theorem link_append {is js : List Instr} (h : is.foldlM (LinkState.link m f) l = .ok l₁)
    (h' : js.foldlM (LinkState.link m f) l₁ = .ok l₂) :
    (is ++ js).foldlM (LinkState.link m f) l = .ok l₂ := by
  rw [List.foldlM_append, h]
  exact h'

theorem link_one {i : Instr} (h : l.link m f i = .ok l₁) :
    [i].foldlM (LinkState.link m f) l = .ok l₁ := by
  rw [List.foldlM_cons, h]
  rfl

theorem link_cons {i : Instr} {is : List Instr} (h : l.link m f i = .ok l₁)
    (h' : is.foldlM (LinkState.link m f) l₁ = .ok l₂) :
    (i :: is).foldlM (LinkState.link m f) l = .ok l₂ := by
  rw [List.foldlM_cons, h]
  exact h'

end

namespace Emit

variable {c : CheckedProgram}

/-- Code for a statement was generated between `s` and `s'`. -/
structure StmtGen (c : CheckedProgram) (s s' : State) (code : List Instr)
    (At : Names → Array Op → (n a n' a' : Nat) → Prop) : Prop where
  emits : Emits s s'
  links : ∀ m f, Named c m → Within m f s' → ∀ l : LinkState, ∃ ops : List Op,
    code.foldlM (LinkState.link m f) l = .ok ⟨l.code ++ ops.toArray, l.regions⟩ ∧
    ∀ arr, OpsAt arr l.code.size ops →
      At (m.names f) arr s.function.nextLabel l.code.size s'.function.nextLabel
        (l.code.size + ops.length)

/-- Code for branches was generated between `s` and `s'`; they leave to `exit`. -/
structure BranchGen (c : CheckedProgram) (exit : String) (s s' : State) (code : List Instr)
    (At : Nat → Names → Array Op → (n a n' a' : Nat) → Prop) : Prop where
  emits : Emits s s'
  links : ∀ m f, Named c m → Within m f s' → ∀ pre waiting rest,
    ∃ (ops : Nat → List Op) (ws : List Nat),
    code.foldlM (LinkState.link m f) ⟨pre, .block exit waiting :: rest⟩
      = .ok ⟨pre ++ (ops 0).toArray, .block exit (ws ++ waiting) :: rest⟩ ∧
    Waits pre.size ops ws ∧
    ∀ t arr, OpsAt arr pre.size (ops t) →
      At t (m.names f) arr s.function.nextLabel pre.size s'.function.nextLabel
        (pre.size + (ops 0).length)

theorem Gen.toStmt {s s' : State} {code : List Instr}
    {At : Names → Array Op → (n a n' a' : Nat) → Prop} (h : Gen c s s' code At) :
    StmtGen c s s' code At := by
  refine ⟨h.emits, fun m f hm hw l => ?_⟩
  refine ⟨code.map (m.names f).op, linkAll_of_resolves (h.resolves m f hm hw) l, ?_⟩
  intro arr hops
  refine h.places _ _ _ _ ⟨hops, fun i hi => ?_, ?_⟩
  · exact declares_of_resolves (h.resolves m f hm hw i hi)
  · rw [List.length_map]

namespace StmtGen

variable {s s₁ s' : State} {code code' : List Instr}
  {At At' : Names → Array Op → (n a n' a' : Nat) → Prop}

theorem imp (h : StmtGen c s s' code At)
    (hat : ∀ {N arr n a n' a'}, At N arr n a n' a' → At' N arr n a n' a') :
    StmtGen c s s' code At' := by
  refine ⟨h.emits, fun m f hm hw l => ?_⟩
  obtain ⟨ops, hl, hops⟩ := h.links m f hm hw l
  exact ⟨ops, hl, fun arr ha => hat (hops arr ha)⟩

theorem append (h : StmtGen c s s₁ code At) (h' : StmtGen c s₁ s' code' At') :
    StmtGen c s s' (code ++ code') fun N arr n a n' a' =>
      ∃ n₁ b, At N arr n a n₁ b ∧ At' N arr n₁ b n' a' := by
  refine ⟨h.emits.trans h'.emits, fun m f hm hw l => ?_⟩
  obtain ⟨ops, hl, hops⟩ := h.links m f hm (hw.before h'.emits) l
  obtain ⟨ops', hl', hops'⟩ := h'.links m f hm hw ⟨l.code ++ ops.toArray, l.regions⟩
  refine ⟨ops ++ ops', ?_, ?_⟩
  · refine (link_append hl hl').trans ?_
    simp
  · intro arr ha
    obtain ⟨h₁, h₂⟩ := opsAt_append.1 ha
    have hsize : (l.code ++ ops.toArray).size = l.code.size + ops.length := by simp
    have hend := hops' arr (hsize ▸ h₂)
    simp only [hsize] at hend
    refine ⟨_, _, hops arr h₁, ?_⟩
    rw [List.length_append, ← Nat.add_assoc]
    exact hend

theorem nil (s : State) : StmtGen c s s [] fun _ _ n a n' a' => a' = a ∧ n' = n := by
  refine ⟨.refl s, fun m f _ _ l => ⟨[], ?_, fun arr _ => ⟨rfl, rfl⟩⟩⟩
  simp
  rfl

end StmtGen

namespace BranchGen

variable {exit : String} {s s₁ s' : State} {code code' : List Instr}
  {At At' : Nat → Names → Array Op → (n a n' a' : Nat) → Prop}

theorem append (h : BranchGen c exit s s₁ code At) (h' : BranchGen c exit s₁ s' code' At') :
    BranchGen c exit s s' (code ++ code') fun t N arr n a n' a' =>
      ∃ n₁ b, At t N arr n a n₁ b ∧ At' t N arr n₁ b n' a' := by
  refine ⟨h.emits.trans h'.emits, fun m f hm hw pre waiting rest => ?_⟩
  obtain ⟨ops, ws, hl, hws, hops⟩ := h.links m f hm (hw.before h'.emits) pre waiting rest
  obtain ⟨ops', ws', hl', hws', hops'⟩ := h'.links m f hm hw (pre ++ (ops 0).toArray)
    (ws ++ waiting) rest
  have hsize : (pre ++ (ops 0).toArray).size = pre.size + (ops 0).length := by simp
  rw [hsize] at hws' hops'
  refine ⟨fun t => ops t ++ ops' t, ws' ++ ws, ?_, hws.append hws', ?_⟩
  · refine (link_append hl hl').trans ?_
    simp
  · intro t arr ha
    obtain ⟨h₁, h₂⟩ := opsAt_append.1 ha
    rw [hws.length t] at h₂
    refine ⟨_, _, hops t arr h₁, ?_⟩
    rw [List.length_append, ← Nat.add_assoc]
    exact hops' t arr h₂

theorem imp (h : BranchGen c exit s s' code At)
    (hat : ∀ {t N arr n a n' a'}, At t N arr n a n' a' → At' t N arr n a n' a') :
    BranchGen c exit s s' code At' := by
  refine ⟨h.emits, fun m f hm hw pre waiting rest => ?_⟩
  obtain ⟨ops, ws, hl, hws, hops⟩ := h.links m f hm hw pre waiting rest
  exact ⟨ops, ws, hl, hws, fun t arr ha => hat (hops t arr ha)⟩

theorem nil (exit : String) (s : State) :
    BranchGen c exit s s [] fun _ _ _ n a n' a' => a' = a ∧ n' = n := by
  refine ⟨.refl s, fun m f _ _ pre waiting rest => ?_⟩
  refine ⟨fun _ => [], [], ?_, .none _ _, fun _ _ _ => ⟨rfl, rfl⟩⟩
  simp
  rfl

/-- A conditional is its branches and the statements that run otherwise. -/
theorem cond {others : List Instr} {At' : Names → Array Op → (n a n' a' : Nat) → Prop}
    (h : BranchGen c exit s s₁ code At) (h' : StmtGen c s₁ s' others At') :
    StmtGen c s s' ([.block exit] ++ code ++ others ++ [.endRegion]) fun N arr n a n' a' =>
      ∃ n₁ b, At a' N arr n a n₁ b ∧ At' N arr n₁ b n' a' := by
  refine ⟨h.emits.trans h'.emits, fun m f hm hw l => ?_⟩
  obtain ⟨ops, ws, hl, hws, hops⟩ := h.links m f hm (hw.before h'.emits) l.code [] l.regions
  obtain ⟨ops', hl', hops'⟩ := h'.links m f hm hw
    ⟨l.code ++ (ops 0).toArray, .block exit (ws ++ []) :: l.regions⟩
  obtain ⟨t, ht⟩ : ∃ t, t = l.code.size + (ops 0).length + ops'.length := ⟨_, rfl⟩
  refine ⟨ops t ++ ops', ?_, ?_⟩
  · refine link_append (link_append (link_append (link_one rfl) hl) hl') (link_one ?_)
    have hsize : (l.code ++ (ops 0).toArray ++ ops'.toArray).size = t := by
      simp [ht, Nat.add_assoc]
    have hp := hws.patch t l.code ops'.toArray rfl
    simp only [LinkState.link, Region.waiting, List.append_nil, hsize, hp]
    simp
    rfl
  · intro arr ha
    obtain ⟨h₁, h₂⟩ := opsAt_append.1 ha
    have hlen : l.code.size + (ops t ++ ops').length = t := by
      rw [List.length_append, hws.length t, ht, Nat.add_assoc]
    have hsize : (l.code ++ (ops 0).toArray).size = l.code.size + (ops 0).length := by simp
    rw [hws.length t, ← hsize] at h₂
    have hend := hops' arr h₂
    simp only [hsize, ← ht] at hend
    rw [hlen]
    exact ⟨_, _, hops t arr h₁, hend⟩

/-- A branch is its condition and its statements. -/
theorem one {At At' : Names → Array Op → (n a n' a' : Nat) → Prop}
    (h : StmtGen c s s₁ code At) (h' : StmtGen c s₁ s' code' At') :
    BranchGen c exit s s' (code ++ [.ifNonzero] ++ code' ++ [.br exit, .endRegion])
      fun t N arr n a n' a' => ∃ n₁ b₁ b₂, At N arr n a n₁ b₁ ∧ OpsAt arr b₁ [.jumpUnless a'] ∧
        At' N arr n₁ (b₁ + 1) n' b₂ ∧ OpsAt arr b₂ [.jump t] ∧ a' = b₂ + 1 := by
  refine ⟨h.emits.trans h'.emits, fun m f hm hw pre waiting rest => ?_⟩
  obtain ⟨test, hl, htest⟩ := h.links m f hm (hw.before h'.emits)
    ⟨pre, .block exit waiting :: rest⟩
  obtain ⟨b₁, hb₁⟩ : ∃ b₁, b₁ = pre.size + test.length := ⟨_, rfl⟩
  have hsize₁ : (pre ++ test.toArray).size = b₁ := by simp [hb₁]
  obtain ⟨body, hl', hbody⟩ := h'.links m f hm hw
    ⟨pre ++ test.toArray ++ #[.jumpUnless 0], .cond [b₁] :: .block exit waiting :: rest⟩
  obtain ⟨b₂, hb₂⟩ : ∃ b₂, b₂ = b₁ + 1 + body.length := ⟨_, rfl⟩
  have hsize₂ : (pre ++ test.toArray ++ #[Op.jumpUnless 0]).size = b₁ + 1 := by
    rw [Array.size_append, hsize₁]
    rfl
  have hsize₃ : (pre ++ test.toArray ++ #[Op.jumpUnless 0] ++ body.toArray).size = b₂ := by
    rw [Array.size_append, hsize₂, hb₂]
    simp
  refine ⟨fun t => test ++ [.jumpUnless (b₂ + 1)] ++ body ++ [.jump t], [b₂], ?_, ?_, ?_⟩
  · have hif : LinkState.link m f ⟨pre ++ test.toArray, .block exit waiting :: rest⟩ .ifNonzero
        = .ok ⟨pre ++ test.toArray ++ #[.jumpUnless 0],
          .cond [b₁] :: .block exit waiting :: rest⟩ := by
      simp only [LinkState.link, LinkState.enter, LinkState.push, hsize₁]
      rfl
    have hbr : LinkState.link m f
        ⟨pre ++ test.toArray ++ #[.jumpUnless 0] ++ body.toArray,
          .cond [b₁] :: .block exit waiting :: rest⟩ (.br exit)
        = .ok ⟨pre ++ test.toArray ++ #[.jumpUnless 0] ++ body.toArray ++ #[.jump 0],
          .cond [b₁] :: .block exit (b₂ :: waiting) :: rest⟩ := by
      simp only [LinkState.link, LinkState.jumpTo, hsize₃]
      simp [ObjLang.branch, Region.label?]
    have hend : LinkState.link m f
        ⟨pre ++ test.toArray ++ #[.jumpUnless 0] ++ body.toArray ++ #[.jump 0],
          .cond [b₁] :: .block exit (b₂ :: waiting) :: rest⟩ .endRegion
        = .ok ⟨pre ++ test.toArray ++ #[.jumpUnless (b₂ + 1)] ++ (body.toArray ++ #[.jump 0]),
          .block exit (b₂ :: waiting) :: rest⟩ := by
      have hmod := modify_at (Op.withTarget (b₂ + 1)) (pre ++ test.toArray) (.jumpUnless 0)
        (body.toArray ++ #[.jump 0])
      rw [hsize₁] at hmod
      have hassoc : pre ++ test.toArray ++ #[Op.jumpUnless 0] ++ body.toArray ++ #[.jump 0]
          = pre ++ test.toArray ++ #[Op.jumpUnless 0] ++ (body.toArray ++ #[Op.jump 0]) :=
        Array.append_assoc
      have hsize₄ : (pre ++ test.toArray ++ #[Op.jumpUnless 0] ++ body.toArray
          ++ #[Op.jump 0]).size = b₂ + 1 := by
        rw [Array.size_append, hsize₃]
        rfl
      simp only [LinkState.link, Region.waiting, hsize₄]
      rw [patch_cons, hassoc, hmod]
      rfl
    refine (link_append (link_append (link_append hl (link_one hif)) hl')
      (link_cons hbr (link_one hend))).trans ?_
    have hcode : pre ++ test.toArray ++ #[Op.jumpUnless (b₂ + 1)] ++ (body.toArray ++ #[Op.jump 0])
        = pre ++ (test ++ [Op.jumpUnless (b₂ + 1)] ++ body ++ [Op.jump 0]).toArray := by
      apply Array.ext'
      simp
    rw [hcode]
    rfl
  · have hlen : pre.size + (test ++ [Op.jumpUnless (b₂ + 1)] ++ body).length = b₂ := by
      simp only [List.length_append, List.length_cons, List.length_nil]
      omega
    have hjump : Waits (pre.size + (test ++ [Op.jumpUnless (b₂ + 1)] ++ body).length)
        (fun t => [.jump t]) [b₂] := by
      rw [hlen]
      exact .one b₂ Op.jump fun _ => rfl
    exact (Waits.none pre.size _).append hjump
  · intro t arr ha
    obtain ⟨ha, h₄⟩ := opsAt_append.1 ha
    obtain ⟨ha, h₃⟩ := opsAt_append.1 ha
    obtain ⟨h₁, h₂⟩ := opsAt_append.1 ha
    simp only [List.length_append, List.length_cons, List.length_nil, ← Nat.add_assoc, ← hb₁,
      Nat.zero_add] at h₂ h₃ h₄ ⊢
    rw [← hb₂] at h₄ ⊢
    rw [← hsize₂] at h₃
    have hbody := hbody arr h₃
    simp only [hsize₂, ← hb₂] at hbody
    have htest := htest arr h₁
    simp only [← hb₁] at htest
    exact ⟨_, b₁, b₂, htest, h₂, hbody, h₄, rfl⟩

end BranchGen

/-- A loop is its condition and its statements. -/
theorem StmtGen.loop {exit head : String} (hne : head ≠ exit) {s s₁ s' : State}
    {code code' : List Instr} {At At' : Names → Array Op → (n a n' a' : Nat) → Prop}
    (h : StmtGen c s s₁ code At) (h' : StmtGen c s₁ s' code' At') :
    StmtGen c s s' ([.block exit, .loop head] ++ code ++ [.eqz, .brIf exit] ++ code'
        ++ [.br head, .endRegion, .endRegion])
      fun N arr n a n' a' => ∃ n₁ b₁ b₂, At N arr n a n₁ b₁ ∧
        OpsAt arr b₁ [.eqz, .jumpIf a'] ∧ At' N arr n₁ (b₁ + 2) n' b₂ ∧
        OpsAt arr b₂ [.jump a] ∧ a' = b₂ + 1 := by
  refine ⟨h.emits.trans h'.emits, fun m f hm hw l => ?_⟩
  obtain ⟨a, ha⟩ : ∃ a, a = l.code.size := ⟨_, rfl⟩
  obtain ⟨test, hl, htest⟩ := h.links m f hm (hw.before h'.emits)
    ⟨l.code, .loop head a :: .block exit [] :: l.regions⟩
  obtain ⟨b₁, hb₁⟩ : ∃ b₁, b₁ = a + test.length := ⟨_, rfl⟩
  obtain ⟨body, hl', hbody⟩ := h'.links m f hm hw
    ⟨l.code ++ test.toArray ++ #[.eqz] ++ #[.jumpIf 0],
      .loop head a :: .block exit [b₁ + 1] :: l.regions⟩
  obtain ⟨b₂, hb₂⟩ : ∃ b₂, b₂ = b₁ + 2 + body.length := ⟨_, rfl⟩
  have hsize₁ : (l.code ++ test.toArray ++ #[Op.eqz]).size = b₁ + 1 := by
    simp [hb₁, ha, Nat.add_assoc]
  have hsize₂ : (l.code ++ test.toArray ++ #[Op.eqz] ++ #[Op.jumpIf 0]).size = b₁ + 2 := by
    rw [Array.size_append, hsize₁]
    rfl
  have hsize₃ : (l.code ++ test.toArray ++ #[Op.eqz] ++ #[Op.jumpIf 0] ++ body.toArray
      ++ #[Op.jump a]).size = b₂ + 1 := by
    rw [Array.size_append, Array.size_append, hsize₂, hb₂]
    simp
  refine ⟨test ++ [.eqz, .jumpIf (b₂ + 1)] ++ body ++ [.jump a], ?_, ?_⟩
  · have hopen : [Instr.block exit, .loop head].foldlM (LinkState.link m f) l
        = .ok ⟨l.code, .loop head a :: .block exit [] :: l.regions⟩ := by
      rw [ha]
      rfl
    have htest : [Instr.eqz, .brIf exit].foldlM (LinkState.link m f)
        ⟨l.code ++ test.toArray, .loop head a :: .block exit [] :: l.regions⟩
        = .ok ⟨l.code ++ test.toArray ++ #[.eqz] ++ #[.jumpIf 0],
          .loop head a :: .block exit [b₁ + 1] :: l.regions⟩ := by
      refine link_cons rfl (link_one ?_)
      simp only [LinkState.link, LinkState.jumpTo, LinkState.push, Array.push_eq_append, hsize₁]
      simp [ObjLang.branch, Region.label?, hne]
    have hback : LinkState.link m f
        ⟨l.code ++ test.toArray ++ #[.eqz] ++ #[.jumpIf 0] ++ body.toArray,
          .loop head a :: .block exit [b₁ + 1] :: l.regions⟩ (.br head)
        = .ok ⟨l.code ++ test.toArray ++ #[.eqz] ++ #[.jumpIf 0] ++ body.toArray ++ #[.jump a],
          .loop head a :: .block exit [b₁ + 1] :: l.regions⟩ := by
      simp only [LinkState.link, LinkState.jumpTo]
      simp [ObjLang.branch, Region.label?]
    have hclose : LinkState.link m f
        ⟨l.code ++ test.toArray ++ #[.eqz] ++ #[.jumpIf 0] ++ body.toArray ++ #[.jump a],
          .block exit [b₁ + 1] :: l.regions⟩ .endRegion
        = .ok ⟨l.code ++ test.toArray ++ #[.eqz] ++ #[.jumpIf (b₂ + 1)]
          ++ (body.toArray ++ #[.jump a]), l.regions⟩ := by
      have hmod := modify_at (Op.withTarget (b₂ + 1)) (l.code ++ test.toArray ++ #[.eqz])
        (.jumpIf 0) (body.toArray ++ #[.jump a])
      rw [hsize₁] at hmod
      have hassoc : l.code ++ test.toArray ++ #[Op.eqz] ++ #[Op.jumpIf 0] ++ body.toArray
          ++ #[Op.jump a] = l.code ++ test.toArray ++ #[Op.eqz] ++ #[Op.jumpIf 0]
          ++ (body.toArray ++ #[Op.jump a]) :=
        Array.append_assoc
      simp only [LinkState.link, Region.waiting, hsize₃]
      rw [patch_cons, hassoc, hmod]
      rfl
    refine (link_append (link_append (link_append (link_append hopen hl) htest) hl')
      (link_cons hback (link_cons rfl (link_one hclose)))).trans ?_
    have hcode : l.code ++ test.toArray ++ #[Op.eqz] ++ #[Op.jumpIf (b₂ + 1)]
        ++ (body.toArray ++ #[Op.jump a])
        = l.code ++ (test ++ [Op.eqz, Op.jumpIf (b₂ + 1)] ++ body ++ [Op.jump a]).toArray := by
      apply Array.ext'
      simp
    rw [hcode]
  · intro arr hops
    obtain ⟨hops, h₄⟩ := opsAt_append.1 hops
    obtain ⟨hops, h₃⟩ := opsAt_append.1 hops
    obtain ⟨h₁, h₂⟩ := opsAt_append.1 hops
    simp only [List.length_append, List.length_cons, List.length_nil, ← Nat.add_assoc, ← ha,
      ← hb₁, Nat.zero_add] at h₂ h₃ h₄ ⊢
    rw [← hb₂] at h₄ ⊢
    rw [← hsize₂] at h₃
    have hbody := hbody arr h₃
    simp only [hsize₂, ← hb₂] at hbody
    have htest := htest arr h₁
    simp only [← ha, ← hb₁] at htest
    exact ⟨_, b₁, b₂, htest, h₂, hbody, h₄, rfl⟩

theorem StmtGen.before {s s₁ s' : State} {code : List Instr}
    {At : Names → Array Op → (n a n' a' : Nat) → Prop} (h : StmtGen c s₁ s' code At)
    (he : Emits s s₁) {k : Nat} (hk : s₁.function.nextLabel = s.function.nextLabel + k) :
    StmtGen c s s' code fun N arr n a n' a' => At N arr (n + k) a n' a' := by
  refine ⟨he.trans h.emits, fun m f hm hw l => ?_⟩
  rw [← hk]
  exact h.links m f hm hw l

/-! ### Statements -/

section

variable {p : Program} {t₀ : Check.State} {lv : List Check.Level} {passes : String → Bool}
  {ret : Option Ty}

open Check Check.Facts

theorem assignment_gen (hc : CheckedOk p c t₀) {value : Expr} {target : Target} {t u : Ty}
    {s s' : State} {code : List Instr} (he : (t₀.facts c.classes).ExprOk lv passes value t)
    (ht : (t₀.facts c.classes).TargetOk lv passes target u)
    (hd : Declares (t₀.facts c.classes) lv s) (h : assignment c value target s = .ok (code, s')) :
    Gen c s s' code fun N arr => AssignAt c N arr value target := by
  match target with
  | .name x b =>
    simp only [TargetOk] at ht
    obtain ⟨v, _, rfl, -, hreach, -, -, -⟩ := ht
    simp only [assignment, bind_eq_ok, bound_eq_ok, pure_eq_ok, Prod.mk.injEq,
      Option.some.injEq] at h
    obtain ⟨_, s₀, ⟨_, rfl, rfl, rfl⟩, is, _, h, rfl, rfl⟩ := h
    have hvalue := expr_gen hc he hd h
    obtain ⟨before, after, hcode, hb, ha⟩ : ∃ before after,
        storeVar (c.var v) is = before ++ is ++ after ∧
        before = (if (c.var v).isGlobal = false ∧ (c.var v).isIndirect = true then
          [.localGet (c.var v).name] else []) ∧
        after = (if (c.var v).isGlobal then [.globalSet (c.var v).name]
          else if (c.var v).isIndirect then [.store 0] else [.localSet (c.var v).name]) := by
      refine ⟨_, _, ?_, rfl, rfl⟩
      unfold storeVar
      cases hg : (c.var v).isGlobal <;> cases hi : (c.var v).isIndirect <;> simp
    have hbefore : Gen c s₀ s₀ before _ := Gen.of_resolves fun m f hm hw i hi => by
      rw [hb] at hi
      obtain ⟨hg, -⟩ | ⟨hg, hn⟩ := resolves_var hc hreach hd hm hw
      · simp [hg] at hi
      · split at hi
        · exact List.mem_singleton.1 hi ▸ hn
        · exact absurd hi List.not_mem_nil
    have hafter : Gen c s' s' after _ := Gen.of_resolves fun m f hm hw i hi => by
      rw [ha] at hi
      obtain ⟨hg, hn⟩ | ⟨hg, hn⟩ := resolves_var hc hreach (hd.later hvalue.emits) hm hw
      · rw [if_pos hg] at hi
        exact List.mem_singleton.1 hi ▸ hn
      · rw [hg, if_neg Bool.false_ne_true] at hi
        split at hi
        · exact List.mem_singleton.1 hi ▸ trivial
        · exact List.mem_singleton.1 hi ▸ hn
    rw [hcode]
    refine ((hbefore.append hvalue).append hafter).imp ?_
    rintro N arr n a n' a' ⟨_, b₂, ⟨_, b₁, ⟨hb₁, rfl⟩, hb₂⟩, ha', rfl⟩
    rw [hb] at hb₁
    rw [ha] at ha'
    simp only [AssignAt]
    exact ⟨v, b₁, b₂, rfl, hb₁, hb₂, ha'⟩
  | .field o f =>
    simp only [TargetOk] at ht
    obtain ⟨_, _, _, _, ho, -, -, -⟩ := ht
    simp only [assignment, bind_eq_ok, fieldOffset_eq_ok, pure_eq_ok, Prod.mk.injEq] at h
    obtain ⟨_, s₁, ⟨l, k, d, hl, hk, rfl, rfl⟩, _, s₂, h₁, _, _, h₂, rfl, rfl⟩ := h
    have hobject := expr_gen hc ho hd h₁
    have hvalue := expr_gen hc he (hd.later hobject.emits) h₂
    have hguard : Gen c s₂ s₂ [.call checkInitName] _ :=
      Gen.one fun _ _ hm _ => hm.hosts _ (by simp)
    have hstore : Gen c s' s' [.store (ClassLayout.fieldOffset k)] _ :=
      Gen.one fun _ _ _ _ => trivial
    refine (((hobject.append hguard).append hvalue).append hstore).imp ?_
    rintro N arr n a n' a' ⟨_, b₃, ⟨n₁, b₂, ⟨_, b₁, hb₁, hb₂, rfl⟩, hb₃⟩, ha', rfl⟩
    simp only [AssignAt]
    exact ⟨l, k, d, n₁, b₁, b₂, b₃, hl, hk, hb₁, hb₂, hb₃, ha'⟩

theorem label_ne {x y : String} (m n : Nat) (h : x.toList.length = y.toList.length)
    (hxy : x ≠ y) : x ++ toString m ≠ y ++ toString n := by
  intro heq
  have hlist := congrArg String.toList heq
  rw [String.toList_append, String.toList_append] at hlist
  exact hxy (String.toList_inj.1 (List.append_inj_left hlist h))

mutual

/-- Code of a checked statement. -/
theorem stmt_gen (hc : CheckedOk p c t₀) {st : Stmt} {s s' : State} {code : List Instr}
    (hst : (t₀.facts c.classes).StmtOk lv passes ret st)
    (hd : Declares (t₀.facts c.classes) lv s) (h : stmt c st s = .ok (code, s')) :
    StmtGen c s s' code fun N arr => StmtAt c N arr st := by
  match st with
  | .assign target value _ =>
    simp only [StmtOk] at hst
    obtain ⟨_, _, he, ht, -⟩ := hst
    simp only [stmt] at h
    refine (assignment_gen hc he ht hd h).toStmt.imp fun hat => ?_
    simp only [StmtAt]
    exact hat
  | .expr value _ =>
    simp only [StmtOk] at hst
    obtain ⟨_, he⟩ := hst
    simp only [stmt, bind_eq_ok, addLocal_eq_ok, pure_eq_ok, Prod.mk.injEq] at h
    obtain ⟨_, _, ⟨-, rfl⟩, _, _, h, rfl, rfl⟩ := h
    have hlist : scratchName.toList = '#' :: ['s', 'c', 'r', 'a', 't', 'c', 'h'] := by decide
    have hadd : Emits s { s with function := s.function.addLocal scratchName } :=
      emits_function (Code.FunctionBuilder.grows_addLocal _ hlist)
    have hvalue := expr_gen hc he (hd.later hadd) h
    have hset : Gen c s' s' [.localSet scratchName] _ := Gen.one fun m f _ hw =>
      hw.names _ (hvalue.emits.function.mem (Code.FunctionBuilder.mem_addLocal _ _))
    refine ((hvalue.append hset).toStmt.before hadd (k := 0)
      (Code.FunctionBuilder.nextLabel_addLocal _ _)).imp ?_
    rintro N arr n a n' a' ⟨_, b, hb, ha', rfl⟩
    simp only [StmtAt]
    exact ⟨b, hb, ha'⟩
  | .ret value _ =>
    simp only [StmtOk] at hst
    obtain ⟨_, _, he, -, -⟩ := hst
    simp only [stmt, bind_eq_ok, pure_eq_ok, Prod.mk.injEq] at h
    obtain ⟨_, _, h, rfl, rfl⟩ := h
    have hret : Gen c s' s' [.ret] _ := Gen.one fun _ _ _ _ => trivial
    refine ((expr_gen hc he hd h).append hret).toStmt.imp ?_
    rintro N arr n a n' a' ⟨_, b, hb, ha', rfl⟩
    simp only [StmtAt]
    exact ⟨b, hb, ha'⟩
  | .pass _ =>
    simp only [stmt, pure_eq_ok, Prod.mk.injEq] at h
    obtain ⟨rfl, rfl⟩ := h
    refine (StmtGen.nil s').imp fun hat => ?_
    simp only [StmtAt]
    exact hat
  | .cond first others otherwise _ =>
    simp only [StmtOk] at hst
    obtain ⟨hfirst, hothers, helse⟩ := hst
    simp only [stmt, bind_eq_ok, newLabel_eq_ok, pure_eq_ok, Prod.mk.injEq] at h
    obtain ⟨_, _, ⟨rfl, rfl⟩, _, s₁, h₁, _, s₂, h₂, _, _, h₃, rfl, rfl⟩ := h
    have hlabel : Emits s { s with function := (s.function.newLabel "if_exit").2 } :=
      emits_function (Code.FunctionBuilder.grows_newLabel _ _)
    have hg₁ := guarded_gen hc hfirst (hd.later hlabel) h₁
    have hg₂ := guardedAll_gen hc hothers (hd.later (hlabel.trans hg₁.emits)) h₂
    have hg₃ := block_gen hc helse
      (hd.later ((hlabel.trans hg₁.emits).trans hg₂.emits)) h₃
    have hall := (((hg₁.append hg₂).cond hg₃).before hlabel (k := 1) rfl)
    rw [← List.append_assoc] at hall
    refine hall.imp ?_
    rintro N arr n a n' a' ⟨n₂, b₂, ⟨n₁, b₁, hb₁, hb₂⟩, hb₃⟩
    simp only [StmtAt]
    exact ⟨n₁, n₂, b₁, b₂, hb₁, hb₂, hb₃⟩
  | .loop (.mk test body) _ =>
    simp only [StmtOk, BranchOk] at hst
    obtain ⟨htest, hbody⟩ := hst
    simp only [stmt, bind_eq_ok, newLabel_eq_ok, pure_eq_ok, Prod.mk.injEq] at h
    obtain ⟨_, _, ⟨rfl, rfl⟩, _, _, ⟨rfl, rfl⟩, _, s₁, h₁, _, _, h₂, rfl, rfl⟩ := h
    have hlabels : Emits s { s with
        function := ((s.function.newLabel "while_exit").2.newLabel "while_loop").2 } :=
      emits_function ((Code.FunctionBuilder.grows_newLabel _ _).trans
        (Code.FunctionBuilder.grows_newLabel _ _))
    have hg₁ := expr_gen hc htest (hd.later hlabels) h₁
    have hg₂ := block_gen hc hbody (hd.later (hlabels.trans hg₁.emits)) h₂
    have hne := label_ne (s.function.newLabel "while_exit").2.nextLabel s.function.nextLabel
      (x := "while_loop") (y := "while_exit") (by decide) (by decide)
    refine ((StmtGen.loop hne hg₁.toStmt hg₂).before hlabels (k := 2) rfl).imp ?_
    rintro N arr n a n' a' hat
    simp only [StmtAt]
    exact hat

/-- Code of checked statements. -/
theorem block_gen (hc : CheckedOk p c t₀) {ss : List Stmt} {s s' : State} {code : List Instr}
    (hss : (t₀.facts c.classes).BlockOk lv passes ret ss)
    (hd : Declares (t₀.facts c.classes) lv s) (h : block c ss s = .ok (code, s')) :
    StmtGen c s s' code fun N arr => BlockAt c N arr ss := by
  match ss with
  | [] =>
    simp only [block, pure_eq_ok, Prod.mk.injEq] at h
    obtain ⟨rfl, rfl⟩ := h
    refine (StmtGen.nil s').imp fun hat => ?_
    simp only [BlockAt]
    exact hat
  | st :: ss =>
    simp only [BlockOk] at hss
    obtain ⟨hst, hss⟩ := hss
    simp only [block, bind_eq_ok, pure_eq_ok, Prod.mk.injEq] at h
    obtain ⟨_, s₁, h₁, _, _, h₂, rfl, rfl⟩ := h
    have hg := stmt_gen hc hst hd h₁
    refine (hg.append (block_gen hc hss (hd.later hg.emits) h₂)).imp fun hat => ?_
    simp only [BlockAt]
    exact hat

/-- Code of a checked branch. -/
theorem guarded_gen (hc : CheckedOk p c t₀) {exit : String} {b : Branch} {s s' : State}
    {code : List Instr} (hb : (t₀.facts c.classes).BranchOk lv passes ret b)
    (hd : Declares (t₀.facts c.classes) lv s) (h : guarded c exit b s = .ok (code, s')) :
    BranchGen c exit s s' code fun t N arr => BranchAt c N arr t b := by
  match b with
  | .mk test body =>
    simp only [BranchOk] at hb
    obtain ⟨htest, hbody⟩ := hb
    simp only [guarded, bind_eq_ok, pure_eq_ok, Prod.mk.injEq] at h
    obtain ⟨_, s₁, h₁, _, _, h₂, rfl, rfl⟩ := h
    have hg := expr_gen hc htest hd h₁
    refine (BranchGen.one hg.toStmt (block_gen hc hbody (hd.later hg.emits) h₂)).imp fun hat => ?_
    simp only [BranchAt]
    exact hat

/-- Code of checked branches. -/
theorem guardedAll_gen (hc : CheckedOk p c t₀) {exit : String} {bs : List Branch} {s s' : State}
    {code : List Instr} (hbs : (t₀.facts c.classes).BranchesOk lv passes ret bs)
    (hd : Declares (t₀.facts c.classes) lv s) (h : guardedAll c exit bs s = .ok (code, s')) :
    BranchGen c exit s s' code fun t N arr => BranchesAt c N arr t bs := by
  match bs with
  | [] =>
    simp only [guardedAll, pure_eq_ok, Prod.mk.injEq] at h
    obtain ⟨rfl, rfl⟩ := h
    refine (BranchGen.nil exit s').imp fun hat => ?_
    simp only [BranchesAt]
    exact hat
  | b :: bs =>
    simp only [BranchesOk] at hbs
    obtain ⟨hb, hbs⟩ := hbs
    simp only [guardedAll, bind_eq_ok, pure_eq_ok, Prod.mk.injEq] at h
    obtain ⟨_, s₁, h₁, _, _, h₂, rfl, rfl⟩ := h
    have hg := guarded_gen hc hb hd h₁
    refine (hg.append (guardedAll_gen hc hbs (hd.later hg.emits) h₂)).imp fun hat => ?_
    simp only [BranchesAt]
    exact hat

end

end

end Emit

end ObjLang
