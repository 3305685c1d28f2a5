import ObjLang.Proofs.Tree.Grammar

/-!
# ObjLang.Proofs.Tree.Grammar.Takes — what the reader accepts is derived

In front of a line end, a reader that succeeds has taken some tokens and stands behind them.  For each
level of the grammar these tokens are a phrase of the level, and the tree read is that of the phrase.
-/

namespace ObjLang

open Token (separated bracketed)

/-- The stream ends with a `newline`. -/
def Cursor.Ends (c : Cursor) : Prop := c.tokens.getLast? = some .newline

/-- Behind a token that does not end the stream the stream goes on. -/
theorem Cursor.Ends.next {c : Cursor} (h : c.Ends) (hline : c.current.token ≠ .newline)
    (heof : c.current.token ≠ .eof) : c.tokens = c.current.token :: c.next.tokens ∧ c.next.Ends := by
  unfold Cursor.next
  rw [if_neg heof]
  unfold Cursor.Ends Cursor.tokens at h ⊢
  cases hahead : c.ahead with
  | nil =>
    rw [hahead] at h
    exact absurd (Option.some.inj h) hline
  | cons l ls =>
    rw [hahead, List.map_cons, List.map_cons, List.getLast?_cons_cons] at h
    exact ⟨by rw [List.map_cons], h⟩

namespace Parser

variable {α β : Type}

/-- In front of `t`, a reader that succeeds takes tokens that stand in the relation to its value. -/
def TakesAt (t : Token) (p : Parser α) (R : List Token → α → Prop) : Prop :=
  ∀ c a c', p c = .ok (a, c') → c.Ends → c.current.token = t →
    c'.Ends ∧ ∃ ts, c.tokens = ts ++ c'.tokens ∧ R ts a

/-- A reader that takes, wherever it succeeds, tokens that stand in the relation to its value. -/
def Takes (p : Parser α) (R : List Token → α → Prop) : Prop := ∀ t, TakesAt t p R

section

variable {t : Token} {R R' : List Token → α → Prop} {S : List Token → β → Prop}

theorem TakesAt.bind {p : Parser α} {f : α → Parser β} (hp : TakesAt t p R)
    (hf : ∀ us a, R us a → Takes (f a) fun vs b => S (us ++ vs) b) : TakesAt t (p >>= f) S := by
  intro c b c' h hc ht
  obtain ⟨a, c₁, h₁, h₂⟩ := bind_eq_ok.1 h
  obtain ⟨hc₁, us, hus, ha⟩ := hp c a c₁ h₁ hc ht
  obtain ⟨hc', vs, hvs, hb⟩ := hf us a ha _ c₁ b c' h₂ hc₁ rfl
  exact ⟨hc', us ++ vs, by rw [hus, hvs, List.append_assoc], hb⟩

theorem Takes.bind {p : Parser α} {f : α → Parser β} (hp : Takes p R)
    (hf : ∀ us a, R us a → Takes (f a) fun vs b => S (us ++ vs) b) : Takes (p >>= f) S :=
  fun t => (hp t).bind hf

theorem Takes.imp {p : Parser α} (hp : Takes p R) (h : ∀ ts a, R ts a → R' ts a) : Takes p R' := by
  intro t c a c' hrun hc ht
  obtain ⟨hc', ts, hts, ha⟩ := hp t c a c' hrun hc ht
  exact ⟨hc', ts, hts, h ts a ha⟩

theorem Takes.pure {a : α} (h : R [] a) : Takes (Pure.pure a) R := by
  intro t c b c' hrun hc _
  obtain ⟨rfl, rfl⟩ := Prod.mk.inj (pure_eq_ok.1 hrun)
  exact ⟨hc, [], rfl, h⟩

theorem TakesAt.get {f : Cursor → Parser α} (hf : ∀ c, TakesAt t (f c) R) :
    TakesAt t (MonadState.get >>= f) R := by
  intro c b c' h hc ht
  obtain ⟨a, c₁, h₁, h₂⟩ := bind_eq_ok.1 h
  obtain ⟨rfl, rfl⟩ := Prod.mk.inj (get_eq_ok.1 h₁)
  exact hf _ _ b c' h₂ hc ht

theorem Takes.get {f : Cursor → Parser α} (hf : ∀ c, Takes (f c) R) :
    Takes (MonadState.get >>= f) R :=
  fun t => TakesAt.get fun c => hf c t

theorem Takes.throw (e : ParseError) : Takes (MonadExcept.throw e : Parser α) R :=
  fun _ _ _ _ h _ _ => (throw_eq_ok.1 h).elim

theorem TakesAt.peek {f : Token → Parser α} (hf : TakesAt t (f t) R) :
    TakesAt t (Parser.peek >>= f) R := by
  intro c b c' h hc ht
  obtain ⟨u, c₁, h₁, h₂⟩ := bind_eq_ok.1 h
  obtain ⟨rfl, rfl⟩ : u = c.current.token ∧ c₁ = c := Prod.mk.inj (ok_eq_ok.1 h₁)
  rw [ht] at h₂
  exact hf _ b c' h₂ hc ht

theorem Takes.peek {f : Token → Parser α} (hf : ∀ t, TakesAt t (f t) R) :
    Takes (Parser.peek >>= f) R :=
  fun t => .peek (hf t)

theorem takes_fail (cause : ParseError.Cause) : Takes (fail cause : Parser α) R :=
  Takes.get fun _ => .throw _

theorem takes_unexpected (what : String) : Takes (unexpected what : Parser α) R :=
  Takes.get fun _ => takes_fail _

theorem takes_behind : Takes behind fun ts _ => ts = [] :=
  Takes.get fun _ => .pure rfl

theorem takesAt_advance (hline : t ≠ .newline) (heof : t ≠ .eof) :
    TakesAt t advance fun ts _ => ts = [t] := by
  intro c a c' h hc ht
  subst ht
  obtain ⟨-, rfl⟩ := Prod.mk.inj (advance_eq_ok.1 h)
  obtain ⟨htokens, hends⟩ := hc.next hline heof
  exact ⟨hends, [c.current.token], htokens, rfl⟩

theorem takes_eat {t : Token} (hline : t ≠ .newline) (heof : t ≠ .eof) :
    Takes (eat t) fun ts b => ts = if b then [t] else [] := by
  refine Takes.peek fun u => ?_
  split
  · next hu =>
    subst hu
    exact (takesAt_advance hline heof).bind fun _ _ hus => .pure (by simpa using hus)
  · exact Takes.pure (R := fun ts (b : Bool) => ts = if b then [t] else []) rfl u

theorem takes_symbol (s : Symbol) (what : String) :
    Takes (expectSymbol s what) fun ts _ => ts = [.symbol s] := by
  refine Takes.peek fun u => ?_
  split
  · next hu =>
    subst hu
    exact takesAt_advance (by simp) (by simp)
  · exact takes_unexpected _ _

theorem takes_ident (what : String) : Takes (ident what) fun ts i => ts = [.name i.name] := by
  refine Takes.peek fun u => ?_
  split
  · exact (takesAt_advance (by simp) (by simp)).bind fun _ _ hus => .pure (by simpa using hus)
  · exact takes_unexpected _ _

/-! ### Repetition -/

/-- A repetition takes what its steps take, if each step carries the relation on. -/
theorem takes_foldMore {more : α → Parser (Option α)}
    (h : ∀ us a, R us a → Takes (more a) fun vs o =>
      (o = none → vs = []) ∧ ∀ b, o = some b → R (us ++ vs) b) {us : List Token} {a : α}
    (ha : R us a) : Takes (foldMore more a) fun vs b => R (us ++ vs) b := by
  refine Takes.get fun c => ?_
  generalize c.left + 2 = n
  induction n generalizing us a with
  | zero => exact takes_fail _
  | succ n ih =>
    refine (h us a ha).bind fun vs o ho => ?_
    cases o with
    | none =>
      obtain rfl := ho.1 rfl
      exact .pure (by simpa using ha)
    | some b =>
      refine (ih (ho.2 b rfl)).imp fun ws b' hb' => ?_
      rwa [List.append_assoc] at hb'

theorem takes_collect {next : Parser (Option α)}
    (h : Takes next fun ts o => (o = none → ts = []) ∧ ∀ a, o = some a → R ts a) :
    Takes (collect next) fun ts as => ∃ parts : List (List Token × α),
      ts = parts.flatMap Prod.fst ∧ as = parts.map Prod.snd ∧ ∀ p ∈ parts, R p.1 p.2 := by
  refine Takes.get fun c => ?_
  generalize c.left + 2 = n
  induction n with
  | zero => exact takes_fail _
  | succ n ih =>
    refine h.bind fun us o ho => ?_
    cases o with
    | none =>
      obtain rfl := ho.1 rfl
      exact .pure ⟨[], rfl, rfl, fun p hp => absurd hp List.not_mem_nil⟩
    | some a =>
      refine ih.bind fun vs as hparts => .pure ?_
      obtain ⟨parts, rfl, rfl, hparts⟩ := hparts
      refine ⟨(us, a) :: parts, by simp, rfl, fun p hp => ?_⟩
      obtain rfl | hp := List.mem_cons.1 hp
      · exact ho.2 a rfl
      · exact hparts p hp

theorem takes_commaSeparated {item : Parser α} (h : Takes item R) :
    Takes (commaSeparated item) fun ts as => ∃ parts : List (List Token × α),
      ts = separated (parts.map Prod.fst) ∧ as = parts.map Prod.snd ∧ ∀ p ∈ parts, R p.1 p.2 := by
  refine Takes.peek fun u => ?_
  split
  · exact Takes.pure ⟨[], rfl, rfl, fun p hp => absurd hp List.not_mem_nil⟩ _
  · have hmore : Takes (do if ← eat (.symbol .comma) then return some (← item) else return none)
        fun ts o => (o = none → ts = []) ∧
          ∀ a, o = some a → ∃ us, ts = .symbol .comma :: us ∧ R us a := by
      refine (takes_eat (by simp) (by simp)).bind fun us b hus => ?_
      subst hus
      split
      · refine h.bind fun vs a ha => .pure ⟨nofun, fun a' ha' => ?_⟩
        obtain rfl := Option.some.inj ha'
        exact ⟨vs, by simp, ha⟩
      · exact .pure ⟨fun _ => rfl, nofun⟩
    refine TakesAt.bind (h u) fun us a ha => (takes_collect hmore).bind fun vs as hparts => .pure ?_
    obtain ⟨parts, rfl, rfl, hparts⟩ := hparts
    -- each further part is a comma and an item
    have hsplit : ∃ rest : List (List Token × α), parts.flatMap Prod.fst =
        rest.flatMap (fun p => .symbol .comma :: p.1) ∧ parts.map Prod.snd = rest.map Prod.snd ∧
          ∀ p ∈ rest, R p.1 p.2 := by
      clear ha
      induction parts with
      | nil => exact ⟨[], rfl, rfl, fun p hp => absurd hp List.not_mem_nil⟩
      | cons p parts ih =>
        obtain ⟨rest, hfst, hsnd, hrest⟩ := ih fun q hq => hparts q (List.mem_cons_of_mem p hq)
        obtain ⟨ws, hws, hp⟩ := hparts p List.mem_cons_self
        refine ⟨(ws, p.2) :: rest, by simp [hfst, hws], by simp [hsnd], fun q hq => ?_⟩
        obtain rfl | hq := List.mem_cons.1 hq
        · exact hp
        · exact hrest q hq
    obtain ⟨rest, hfst, hsnd, hrest⟩ := hsplit
    refine ⟨(us, a) :: rest, ?_, by simp [hsnd], fun p hp => ?_⟩
    · simp [separated, hfst, List.flatMap_map]
    · obtain rfl | hp := List.mem_cons.1 hp
      · exact ha
      · exact hrest p hp

end

/-! ### The levels of the grammar -/

/-- The tokens are a phrase of the level with the given tree. -/
def Phrase (level : Precedence) (ts : List Token) (e : Expr) : Prop := Derives level ts e.bare

section

variable {inner operand : Parser Expr}

theorem takes_arguments (h : Takes inner (Phrase .expr)) :
    Takes (arguments inner) fun ts as => ∃ args : List (List Token × Expr),
      ts = bracketed (separated (args.map Prod.fst)) ∧ as.map Expr.bare = args.map Prod.snd ∧
        ∀ a ∈ args, Derives .expr a.1 a.2 := by
  refine (takes_symbol _ _).bind fun us _ hus => (takes_commaSeparated h).bind fun vs as hparts =>
    (takes_symbol _ _).bind fun ws _ hws => .pure ?_
  obtain ⟨parts, rfl, rfl, hparts⟩ := hparts
  subst hus hws
  refine ⟨parts.map fun p => (p.1, p.2.bare), ?_, ?_, fun a ha => ?_⟩
  · simp [bracketed, Function.comp_def]
  · simp [Function.comp_def]
  · obtain ⟨p, hp, rfl⟩ := List.mem_map.1 ha
    exact hparts p hp

theorem takes_atom (h : Takes inner (Phrase .expr)) : Takes (atom inner) (Phrase .atom) := by
  refine Takes.peek fun t => ?_
  split
  · next n =>
    refine (takesAt_advance (by simp) (by simp)).bind fun us span hus => ?_
    subst hus
    split
    · next hn => exact .pure (.int (Nat.lt_succ_of_le hn))
    · exact .throw _
  · exact (takesAt_advance (by simp) (by simp)).bind fun us span hus => .pure (hus ▸ .bool true)
  · exact (takesAt_advance (by simp) (by simp)).bind fun us span hus => .pure (hus ▸ .bool false)
  · exact (takesAt_advance (by simp) (by simp)).bind fun us span hus => .pure (hus ▸ .none)
  · next x =>
    refine (takesAt_advance (by simp) (by simp)).bind fun us span hus => Takes.peek fun u => ?_
    subst hus
    split
    · refine TakesAt.bind (takes_arguments h u) fun vs as hargs => takes_behind.bind
        fun ws _ hws => .pure ?_
      obtain ⟨args, rfl, has, hargs⟩ := hargs
      subst hws
      rw [List.append_nil, List.append_nil, Phrase, Expr.bare, Expr.listBare_eq, has]
      exact .call hargs
    · exact Takes.pure (.name x) u
  · refine (takesAt_advance (by simp) (by simp)).bind fun us span hus => h.bind fun vs e he =>
      (takes_symbol _ _).bind fun ws _ hws => .pure ?_
    subst hus hws
    rw [List.append_nil]
    exact .brackets he
  · exact takes_unexpected _ _

theorem takes_access? (h : Takes inner (Phrase .expr)) {us : List Token} {object : Expr}
    (hobject : Phrase .access us object) :
    Takes (access? inner object) fun vs o =>
      (o = none → vs = []) ∧ ∀ e, o = some e → Phrase .access (us ++ vs) e := by
  refine (takes_eat (by simp) (by simp)).bind fun ds b hds => ?_
  subst hds
  split
  · refine (takes_ident _).bind fun xs part hxs => Takes.peek fun u => ?_
    subst hxs
    split
    · refine TakesAt.bind (takes_arguments h u) fun vs as hargs => takes_behind.bind
        fun ws _ hws => .pure ⟨fun hnone => absurd hnone (Option.some_ne_none _), fun e he => ?_⟩
      obtain ⟨args, rfl, has, hargs⟩ := hargs
      obtain rfl := Option.some.inj he
      subst hws
      rw [List.append_nil, List.append_nil, Phrase, Expr.bare, Expr.listBare_eq, has]
      exact .method hobject hargs
    · refine Takes.pure ⟨fun hnone => absurd hnone (Option.some_ne_none _), fun e he => ?_⟩ u
      obtain rfl := Option.some.inj he
      exact Derives.field (x := part.name) hobject
  · exact .pure ⟨fun _ => rfl, fun e he => absurd he.symm (Option.some_ne_none e)⟩

theorem takes_accesses (h : Takes inner (Phrase .expr)) :
    Takes (accesses inner) (Phrase .access) := by
  refine (takes_atom h).bind fun us a ha =>
    (takes_foldMore (fun vs o ho => takes_access? h ho) (Derives.ofAtom ha)).bind fun vs e he =>
      Takes.peek fun t => ?_
  split
  · exact takes_fail _ _
  · exact Takes.pure (by simpa using he) t

theorem takes_signsUpTo (h : Takes operand (Phrase .access)) (n : Nat) :
    Takes (signsUpTo operand n) (Phrase .factor) := by
  induction n with
  | zero => exact takes_fail _
  | succ n ih =>
    refine Takes.peek fun t => ?_
    split
    · next ht =>
      subst ht
      refine (takesAt_advance (by simp) (by simp)).bind fun us start hus => Takes.peek fun u => ?_
      subst hus
      split
      · next hu =>
        subst hu
        refine TakesAt.bind (takesAt_advance (by simp) (by simp)) fun vs stop hvs => .pure ?_
        subst hvs
        exact .smallest
      · refine TakesAt.bind (ih u) fun vs e he => .pure ?_
        rw [List.append_nil]
        exact .sign he
    · exact fun c a c' hrun hc ht => (h.imp fun _ _ he => .ofAccess he) t c a c' hrun hc ht

/-- A chain of the operators of one level is a phrase of the level. -/
theorem takes_leftChain {level tighter : Precedence} {op? : Token → Option BinaryOp}
    (h : Takes operand (Phrase tighter))
    (hop : ∀ t op, op? t = some op → t = op.token ∧ op.precedence = level)
    (hone : ∀ ts e, Derives tighter ts e → Derives level ts e)
    (hmore : ∀ op ls rs l r, op.precedence = level → Derives level ls l → Derives tighter rs r →
      Derives level (ls ++ op.token :: rs) (.binary { span := default } op l r)) :
    Takes (leftChain op? operand) (Phrase level) := by
  rw [leftChain_eq]
  refine h.bind fun us first hfirst => takes_foldMore (fun vs left hleft => ?_) (hone _ _ hfirst)
  refine Takes.peek fun t => ?_
  split
  · next op ht =>
    obtain ⟨rfl, hlevel⟩ := hop t op ht
    have hline : op.token ≠ .newline := by cases op <;> simp [BinaryOp.token]
    refine (takesAt_advance hline (binaryOp_token_ne op).2.2).bind fun ts _ hts =>
      h.bind fun rs right hright => .pure ⟨nofun, fun e he => ?_⟩
    subst hts
    obtain rfl := Option.some.inj he
    rw [List.append_nil]
    exact hmore op vs rs _ _ hlevel hleft hright
  · exact Takes.pure ⟨fun _ => rfl, nofun⟩ t

theorem multiplicative?_eq_some {t : Token} {op : BinaryOp} (h : multiplicative? t = some op) :
    t = op.token ∧ op.precedence = .term := by
  unfold multiplicative? at h
  split at h <;> first | cases h; exact ⟨rfl, rfl⟩ | cases h

theorem additive?_eq_some {t : Token} {op : BinaryOp} (h : additive? t = some op) :
    t = op.token ∧ op.precedence = .sum := by
  unfold additive? at h
  split at h <;> first | cases h; exact ⟨rfl, rfl⟩ | cases h

theorem comparison?_eq_some {t : Token} {op : BinaryOp} (h : comparison? t = some op) :
    t = op.token ∧ op.precedence = .comparison := by
  unfold comparison? at h
  split at h <;> first | cases h; exact ⟨rfl, rfl⟩ | cases h

theorem takes_compared (h : Takes operand (Phrase .sum)) :
    Takes (compared operand) (Phrase .comparison) := by
  refine h.bind fun us left hleft => Takes.peek fun t => ?_
  split
  · refine Takes.pure ?_ t
    rw [List.append_nil]
    exact .ofSum hleft
  · next op ht =>
    obtain ⟨rfl, hlevel⟩ := comparison?_eq_some ht
    have hline : op.token ≠ .newline := by cases op <;> simp [BinaryOp.token]
    refine (takesAt_advance hline (binaryOp_token_ne op).2.2).bind fun ts _ hts =>
      h.bind fun rs right hright => Takes.peek fun u => ?_
    subst hts
    split
    · exact takes_fail _ _
    · refine Takes.pure ?_ u
      rw [List.append_nil]
      exact .comparison hlevel hleft hright

theorem takes_negatedUpTo (h : Takes operand (Phrase .comparison)) (n : Nat) :
    Takes (negatedUpTo operand n) (Phrase .expr) := by
  induction n with
  | zero => exact takes_fail _
  | succ n ih =>
    refine Takes.peek fun t => ?_
    split
    · next ht =>
      subst ht
      refine (takesAt_advance (by simp) (by simp)).bind fun us start hus => ih.bind fun vs e he =>
        .pure ?_
      subst hus
      rw [List.append_nil]
      exact .negation he
    · exact (h.imp fun _ _ he => Derives.ofComparison he) t

end

theorem takes_exprUpTo (n : Nat) : Takes (exprUpTo n) (Phrase .expr) := by
  induction n with
  | zero => exact takes_fail _
  | succ n ih =>
    have hfactor : Takes (factorOf n) (Phrase .factor) :=
      Takes.get fun _ => takes_signsUpTo (takes_accesses ih) _
    have hterm : Takes (termOf n) (Phrase .term) :=
      takes_leftChain hfactor (fun _ _ => multiplicative?_eq_some) (fun _ _ => .ofFactor)
        fun _ _ _ _ _ => .term
    have hsum : Takes (sumOf n) (Phrase .sum) :=
      takes_leftChain hterm (fun _ _ => additive?_eq_some) (fun _ _ => .ofTerm)
        fun _ _ _ _ _ => .sum
    rw [exprUpTo_succ]
    exact Takes.get fun _ => takes_negatedUpTo (takes_compared hsum) _

/-- What is read as an expression is one of the grammar. -/
theorem takes_expr : Takes expr (Phrase .expr) := Takes.get fun _ => takes_exprUpTo _

end Parser

end ObjLang
