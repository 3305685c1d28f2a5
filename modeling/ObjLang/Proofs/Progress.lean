import ObjLang.Proofs.Indentation
import ObjLang.Proofs.Token.Places
import ObjLang.Proofs.Tree.Depth

/-!
# ObjLang.Proofs.Progress — the parser always gets on

From any token of a list that ends with `eof`, whatever the other tokens are, statements, expressions and
definitions are read with at least one token, no reader goes back or over an `eof`, every loop ends by
itself, and calls are nested no deeper than eight for each token that is left.  So the bounds of the
parser are never met, and its readers are those without bounds.
-/

namespace ObjLang

namespace Parser

/-! ### Loops -/

section

variable {α σ : Type}

/-- A loop without a bound: the number of times that it goes on, and what it ends with. -/
inductive Ends (round : σ → Parser (Option σ)) :
    Nat → σ → Cursor → Except ParseError (σ × Cursor) → Prop
  | fault {s : σ} {c : Cursor} {e : ParseError} (h : round s c = .error e) :
    Ends round 0 s c (.error e)
  | stop {s : σ} {c c' : Cursor} (h : round s c = .ok (none, c')) : Ends round 0 s c (.ok (s, c'))
  | again {k : Nat} {s s' : σ} {c c' : Cursor} {r : Except ParseError (σ × Cursor)}
    (h : round s c = .ok (some s', c')) (hrest : Ends round k s' c' r) : Ends round (k + 1) s c r

/-- A list with the next item behind it. -/
def pushed (next : Parser (Option α)) (as : List α) : Parser (Option (List α)) := do
  match ← next with
  | none => return none
  | some a => return some (as ++ [a])

variable {n j : Nat} {c : Cursor}

/-- Every round that goes on reads a token, so there are no more of them than tokens. -/
theorem ends_foldMoreUpTo {more : σ → Parser (Option σ)} (h : ∀ a, Agree n (more a) (more a) taken)
    (hc : c.Closed) (hn : c.left < n) (hj : c.left < j) (a : σ) :
    ∃ k ≤ c.left, Ends more k a c (foldMoreUpTo more j a c) := by
  induction j generalizing a c with
  | zero => exact absurd hj (Nat.not_lt_zero _)
  | succ j ih =>
    have hbind : foldMoreUpTo more (j + 1) a c = more a c >>= fun r =>
        (match r.1 with | none => pure a | some b => foldMoreUpTo more j b : Parser σ) r.2 := rfl
    rw [hbind]
    cases hrun : more a c with
    | error e => exact ⟨0, Nat.zero_le _, .fault hrun⟩
    | ok r =>
      obtain ⟨o, c'⟩ := r
      cases o with
      | none => exact ⟨0, Nat.zero_le _, .stop hrun⟩
      | some b =>
        obtain ⟨l, hl, hmoves⟩ := ((h a).at_cursor hc hn).moves _ _ hrun
        obtain ⟨hc', hleft⟩ := hmoves.closed hc
        have hpos : 1 ≤ l := hl
        obtain ⟨k, hk, hends⟩ := ih hc' (by omega) (by omega) b
        exact ⟨k + 1, by omega, .again hrun hends⟩

/-- A list is read by growing the empty one. -/
theorem foldMoreUpTo_pushed (next : Parser (Option α)) (j : Nat) (as : List α) :
    foldMoreUpTo (pushed next) j as = (as ++ ·) <$> collectUpTo next j := by
  induction j generalizing as with
  | zero => rfl
  | succ j ih =>
    rw [foldMoreUpTo, collectUpTo, pushed, bind_assoc, map_bind]
    refine bind_congr fun o => ?_
    cases o with
    | none => simp
    | some a => simp [ih, List.append_assoc]

theorem agree_pushed {next : Parser (Option α)} (h : Agree n next next taken) (as : List α) :
    Agree n (pushed next as) (pushed next as) taken := by
  refine h.bind fun o => ?_
  cases o with
  | none => exact .pure rfl
  | some a => exact .pure rfl

theorem ends_foldMore {more : σ → Parser (Option σ)}
    (h : ∀ n a, Agree n (more a) (more a) taken) (hc : c.Closed) (a : σ) :
    ∃ k ≤ c.left, Ends more k a c (foldMore more a c) :=
  ends_foldMoreUpTo (h (c.left + 1)) hc (Nat.lt_succ_self _) (Nat.lt_add_of_pos_right (by decide)) a

theorem ends_collect {next : Parser (Option α)} (h : ∀ n, Agree n next next taken)
    (hc : c.Closed) : ∃ k ≤ c.left, Ends (pushed next) k [] c (collect next c) := by
  have hcollect : foldMore (pushed next) [] = collect next := by
    unfold foldMore collect
    simp only [foldMoreUpTo_pushed, List.nil_append, id_map']
  rw [← hcollect]
  exact ends_foldMore (fun n as => agree_pushed (h n) as) hc []

end

/-! ### The readers of the parser -/

/-- What the parser reads in lists, up to the end of the list. -/
inductive Listed : (α : Type) → Parser (Option α) → Prop
  | definitions : Listed TopDecl nextTopDecl?
  | statements : Listed Stmt nextTopStmt?
  | params : Listed TypedName (announced (.symbol .comma) typedName)
  | declarations : Listed BodyDecl (nextBodyDecl? funDef)
  | body (inBlock inFunction : Bool) : Listed Stmt (nextStmt? inBlock (stmt inFunction))
  | items : Listed ClassItem nextClassItem?
  | elifs (inFunction : Bool) :
    Listed Branch (announced (.keyword .elifKw) (branch (stmt inFunction)))
  | arguments : Listed Expr (announced (.symbol .comma) expr)

/-- What the parser reads on the right of an expression, as long as it goes on. -/
inductive Chained : (Expr → Parser (Option Expr)) → Prop
  | sums : Chained (joins additive? term)
  | terms : Chained (joins multiplicative? factor)
  | accesses : Chained (access? expr)

/-- The functions that read tokens. -/
inductive IsReader : (α : Type) → Parser α → Prop
  -- tokens
  | peek : IsReader Token peek
  | here : IsReader Span here
  | behind : IsReader Span behind
  | advance : IsReader Span advance
  | eat (t : Token) : IsReader Bool (eat t)
  | expect (t : Token) (what : String) : IsReader Span (expect t what)
  | ident (what : String) : IsReader Ident (ident what)
  -- expressions
  | arguments : IsReader (List Expr) (arguments expr)
  | atom : IsReader Expr (atom expr)
  -- statements
  | block (inFunction : Bool) : IsReader (List Stmt) (block (stmt inFunction))
  | branch (inFunction : Bool) : IsReader Branch (branch (stmt inFunction))
  | cond (inFunction : Bool) : IsReader Stmt (condStmt (stmt inFunction))
  | loop (inFunction : Bool) : IsReader Stmt (loopStmt (stmt inFunction))
  | ret (inFunction : Bool) : IsReader Stmt (returnStmt inFunction)
  | simple : IsReader Stmt simpleStmt
  -- definitions
  | typeName : IsReader Ident typeName
  | typedName : IsReader TypedName typedName
  | params : IsReader (List TypedName) (commaSeparated typedName)
  | literalInit : IsReader Literal literalInit
  | varDef : IsReader VarDef varDef
  | scopeDecl (kind : ScopeKind) : IsReader ScopeDecl (scopeDecl kind)
  -- loops, and the readers that call each other
  | item {α : Type} {next : Parser (Option α)} (h : Listed α next) : IsReader (Option α) next
  | list {α : Type} {next : Parser (Option α)} (h : Listed α next) : IsReader (List α) (collect next)
  | more {more : Expr → Parser (Option Expr)} (h : Chained more) (e : Expr) :
    IsReader (Option Expr) (more e)
  | chain {more : Expr → Parser (Option Expr)} (h : Chained more) (e : Expr) :
    IsReader Expr (foldMore more e)
  | rule (r : Rule) : IsReader r.Value r.reader

theorem Listed.goes {α : Type} {next : Parser (Option α)} (h : Listed α next) (n : Nat) :
    Agree n next next taken := by
  have hexpr := Rule.goes .expr
  have hfun := Rule.goes .funDef
  have hstmt := fun inFunction => Rule.goes (.stmt inFunction)
  cases h with
  | definitions => exact agree_nextTopDeclOf? (hfun n) (Rule.goes .classDef n)
  | statements => exact agree_nextTopStmtOf? (hstmt false n)
  | params => exact agree_announced (by simp) agree_typedName.free
  | declarations => exact agree_nextBodyDecl? (hfun n)
  | body inBlock inFunction => exact agree_nextStmt? (hstmt inFunction n) inBlock
  | items => exact agree_nextClassItemOf? (hfun n)
  | elifs inFunction =>
    exact agree_announced (by simp) (agree_branchOf (hexpr _) (hstmt inFunction _)).free
  | arguments => exact agree_announced (by simp) (hexpr _).free

theorem Chained.goes {more : Expr → Parser (Option Expr)} (h : Chained more) (n : Nat) (e : Expr) :
    Agree n (more e) (more e) taken := by
  cases h with
  | sums => exact agree_joins rfl (Rule.goes .term n) e
  | terms => exact agree_joins rfl (Rule.goes .factor n) e
  | accesses => exact agree_access? (Rule.goes .expr _) e

theorem IsReader.goes {α : Type} {p : Parser α} (h : IsReader α p) (n : Nat) :
    Agree n p p fun _ => 0 := by
  have hexpr := Rule.goes .expr
  have hstmt := fun inFunction => Rule.goes (.stmt inFunction)
  cases h with
  | peek => exact .get fun c => .ofAgree (.pure rfl)
  | here => exact agree_here
  | behind => exact agree_behind
  | advance => exact agree_advance
  | eat t =>
    exact .peek fun u => .ite (fun _ => .ofAgree (agree_advance.bind fun _ => .pure rfl)) fun _ =>
      .ofAgree (.pure rfl)
  | expect t what =>
    exact .peek fun u => .ite (fun _ => .ofAgree agree_advance) fun _ =>
      .ofAgree (agree_unexpected what)
  | ident what => exact (agree_ident what).free
  | arguments => exact (agree_arguments (hexpr _)).free
  | atom => exact (agree_atom (hexpr _)).free
  | block inFunction => exact (agree_block (hstmt inFunction n)).free
  | branch inFunction => exact (agree_branchOf (hexpr n) (hstmt inFunction n)).free
  | cond inFunction => exact (agree_condOf (hexpr n) (hstmt inFunction _)).free
  | loop inFunction => exact (agree_loopOf (hexpr n) (hstmt inFunction _)).free
  | ret inFunction => exact (agree_returnOf (hexpr n)).free
  | simple => exact (agree_simpleOf (hexpr n)).free
  | typeName => exact agree_typeName.free
  | typedName => exact agree_typedName.free
  | params => exact agree_commaSeparated agree_typedName
  | literalInit => exact agree_literalInit.free
  | varDef => exact agree_varDef.free
  | scopeDecl kind => exact (agree_scopeDecl kind).free
  | item h => exact (h.goes n).free
  | list h => exact agree_collect (h.goes n)
  | more h e => exact (h.goes n e).free
  | chain h e => exact agree_foldMore (h.goes n) e
  | rule r => exact (r.goes n).free

/-! ### Progress -/

/-- A cursor on a token of the list, with no `eof` from the first place up to it. -/
structure Reaches (tokens : List Lexeme) (i j : Nat) (c : Cursor) : Prop where
  on : c = Cursor.on tokens j
  inside : j < tokens.length
  le : i ≤ j
  passed : ∀ k, i ≤ k → k < j → (Cursor.on tokens k).current.token ≠ .eof

/-- If the reader succeeds, it has read a token. -/
def Forward {α : Type} (tokens : List Lexeme) (i : Nat) (p : Parser α) : Prop :=
  ∀ a c, p (Cursor.on tokens i) = .ok (a, c) → ∃ j, i < j ∧ Reaches tokens i j c

/-- What holds of reading a list from one of its tokens on. -/
structure Progress (tokens : List Lexeme) (i : Nat) : Prop where
  stmt : ∀ inFunction, Forward tokens i (Parser.stmt inFunction)
  expr : Forward tokens i Parser.expr
  varDef : Forward tokens i Parser.varDef
  funDef : Forward tokens i Parser.funDef
  classDef : Forward tokens i Parser.classDef
  scopeDecl : ∀ kind, Forward tokens i (Parser.scopeDecl kind)
  /-- No function that reads tokens goes back, or over an `eof`. -/
  reader : ∀ α (p : Parser α), IsReader α p → ∀ a c, p (Cursor.on tokens i) = .ok (a, c) →
    ∃ j, Reaches tokens i j c
  /-- Every loop ends by itself, as the parser has it, and goes on less often than tokens are left. -/
  list : ∀ α (next : Parser (Option α)), Listed α next → ∃ k < tokens.length - i,
    Ends (pushed next) k [] (Cursor.on tokens i) (collect next (Cursor.on tokens i))
  chain : ∀ more, Chained more → ∀ e, ∃ k < tokens.length - i,
    Ends more k e (Cursor.on tokens i) (foldMore more e (Cursor.on tokens i))
  /-- Calls are nested at most eight deep for each token that is left. -/
  depth : ∀ (r : Rule) b, 8 * (tokens.length - i) ≤ b →
    r.within b (Cursor.on tokens i) = r.reader (Cursor.on tokens i)
  /-- The readers are those that call each other without a bound, and none meets one. -/
  unbounded : ∀ r : Rule, r.reader (Cursor.on tokens i) = r.body Rule.reader (Cursor.on tokens i)
  fault : ∀ (r : Rule) e, r.reader (Cursor.on tokens i) = .error e → e.cause ≠ .broken .tooDeep

section

variable {tokens : List Lexeme} {span : Span} {i : Nat}

theorem left_on_lt (hi : i < tokens.length) : (Cursor.on tokens i).left < tokens.length - i := by
  rw [Cursor.left_on]
  omega

theorem reaches_of_agree {α : Type} {p q : Parser α} {K : α → Nat} (h : ∀ n, Agree n p q K)
    (hi : i < (Cursor.closing tokens span).length) {a : α} {c : Cursor}
    (hrun : p (Cursor.on (Cursor.closing tokens span) i) = .ok (a, c)) :
    ∃ j, i + K a ≤ j ∧ Reaches (Cursor.closing tokens span) i j c := by
  obtain ⟨k, hk, hmoves⟩ := ((h _).at_cursor (Cursor.closed_on hi) (Nat.lt_succ_self _)).moves a c hrun
  obtain ⟨hlt, hc, hpassed⟩ := hmoves.on hi
  exact ⟨i + k, by omega, hc, hlt, Nat.le_add_right i k, hpassed⟩

theorem forward_of_agree {α : Type} {p : Parser α} (h : ∀ n, Agree n p p fun _ => 1)
    (hi : i < (Cursor.closing tokens span).length) :
    Forward (Cursor.closing tokens span) i p := by
  intro a c hrun
  obtain ⟨j, hj, hreaches⟩ := reaches_of_agree h hi hrun
  exact ⟨j, hj, hreaches⟩

end

/-- Reading gets on from every token of every list that ends with `eof`. -/
theorem progress_closing (tokens : List Lexeme) (span : Span) (i : Fin (tokens.length + 1)) :
    Progress (Cursor.closing tokens span) i := by
  have hi : (i : Nat) < (Cursor.closing tokens span).length := by
    rw [Cursor.closing, List.length_append]
    exact i.isLt
  have hc : (Cursor.on (Cursor.closing tokens span) i).Closed := Cursor.closed_on hi
  have hleft := left_on_lt hi
  exact {
    stmt := fun inFunction => forward_of_agree (Rule.goes (.stmt inFunction)) hi
    expr := forward_of_agree (Rule.goes .expr) hi
    varDef := forward_of_agree (fun _ => agree_varDef) hi
    funDef := forward_of_agree (Rule.goes .funDef) hi
    classDef := forward_of_agree (Rule.goes .classDef) hi
    scopeDecl := fun kind => forward_of_agree (fun _ => agree_scopeDecl kind) hi
    reader := fun α p hp a c hrun => by
      obtain ⟨j, -, hreaches⟩ := reaches_of_agree hp.goes hi hrun
      exact ⟨j, hreaches⟩
    list := fun α next hnext => by
      obtain ⟨k, hk, hends⟩ := ends_collect hnext.goes hc
      exact ⟨k, Nat.lt_of_le_of_lt hk hleft, hends⟩
    chain := fun more hmore e => by
      obtain ⟨k, hk, hends⟩ := ends_foldMore hmore.goes hc e
      exact ⟨k, Nat.lt_of_le_of_lt hk hleft, hends⟩
    depth := fun r b hb => ((r.agree_reader hb).at_cursor hc hleft).eq.symm
    unbounded := fun r => r.reader_eq hc
    fault := fun r e he => ((r.goes _).at_cursor hc hleft).fault e he }

-- a name is six calls deep, from expressions down to accesses
example : (run (Rule.within 6 .expr) [⟨.name "x", default⟩, ⟨.eof, default⟩]).isOk = true := rfl
example : (run (Rule.within 5 .expr) [⟨.name "x", default⟩, ⟨.eof, default⟩]).isOk = false := rfl

/-- No list of tokens that ends with `eof` is refused because it is nested too deep. -/
theorem Rule.cause_ne_tooDeep (r : Rule) {tokens : List Lexeme} {span : Span} {e : ParseError}
    (h : run r.reader (Cursor.closing tokens span) = .error e) : e.cause ≠ .broken .tooDeep := by
  have hlength : 0 < (Cursor.closing tokens span).length := by
    rw [Cursor.closing, List.length_append]
    exact Nat.succ_pos _
  have hc := Cursor.closed_on hlength
  rw [← Cursor.ofList_eq_on] at hc
  have hmap : (r.reader (Cursor.ofList (Cursor.closing tokens span))).map (·.1) = .error e := h
  cases hrun : r.reader (Cursor.ofList (Cursor.closing tokens span)) with
  | error e' =>
    rw [hrun] at hmap
    obtain rfl := Except.error.inj hmap
    exact ((r.goes _).at_cursor hc (Nat.lt_succ_self _)).fault e' hrun
  | ok a =>
    rw [hrun] at hmap
    cases hmap

end Parser

/-- No source text is, either. -/
theorem Program.cause_ne_tooDeep {source : String} {e : ParseError}
    (h : Program.parse source = .error e) : e.cause ≠ .broken .tooDeep := by
  unfold Program.parse at h
  split at h
  · next tokens htokens =>
    obtain ⟨body, ⟨final, span⟩, rfl, hfinal, -⟩ := (Token.laidOut_of_tokenize htokens).ends
    obtain rfl : final = .eof := hfinal
    exact Parser.Rule.cause_ne_tooDeep .program h
  · next hnil => exact absurd hnil Token.tokenize_ne_error_nil
  · obtain rfl := Except.error.inj h
    nofun

end ObjLang
