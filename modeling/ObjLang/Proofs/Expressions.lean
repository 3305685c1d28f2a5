import ObjLang.Proofs.Tree.Grammar.Takes

/-!
# ObjLang.Proofs.Expressions — expressions are read by their grammar

In front of a line end the reader accepts exactly the phrases of the grammar, takes all their tokens and
gives their trees.  As the reader gives one tree, so does the grammar.
-/

namespace ObjLang

theorem Cursor.tokens_ofList (tokens : List Lexeme) (span : Span) :
    (Cursor.ofList (tokens ++ [⟨.newline, span⟩])).tokens = tokens.map Lexeme.token ++ [.newline] := by
  cases tokens with
  | nil => rfl
  | cons l ls =>
    show (l :: (ls ++ [_])).map Lexeme.token = _
    rw [← List.cons_append, List.map_append]
    rfl

/-- A phrase is read in front of a line end. -/
theorem Derives.accepted {c : Cursor} {ts : List Token} {e : Expr} (h : Derives .expr ts e)
    (hc : c.tokens = ts ++ [.newline]) :
    ∃ e' c', Parser.expr c = .ok (e', c') ∧ c'.tokens = [.newline] ∧ e'.bare = e := by
  have hends : Parser.EndsExpr .newline := ⟨⟨⟨⟨nofun, nofun⟩, rfl⟩, rfl⟩, rfl⟩
  exact h.reads hends c hc

/-- What is read in front of a line end is a phrase. -/
theorem Parser.derives_of_expr {c c' : Cursor} {ts : List Token} {e : Expr}
    (hc : c.tokens = ts ++ [.newline]) (hrun : Parser.expr c = .ok (e, c'))
    (hc' : c'.tokens = [.newline]) : Derives .expr ts e.bare := by
  have hends : c.Ends := by rw [Cursor.Ends, hc, List.getLast?_concat]
  obtain ⟨-, us, hus, hphrase⟩ := takes_expr _ c e c' hrun hends rfl
  rw [hc, hc'] at hus
  obtain rfl := List.append_cancel_right hus
  exact hphrase

/-- The grammar gives a list of tokens at most one tree. -/
theorem Derives.unique {ts : List Token} {e e' : Expr} (h : Derives .expr ts e)
    (h' : Derives .expr ts e') : e' = e := by
  let c : Cursor := .ofList (ts.map (⟨·, default⟩) ++ [⟨.newline, default⟩])
  have hc : c.tokens = ts ++ [.newline] := by
    rw [Cursor.tokens_ofList, List.map_map]
    exact congrArg (· ++ [Token.newline]) (List.map_id ts)
  obtain ⟨a, c₁, hrun, -, rfl⟩ := h.accepted hc
  obtain ⟨b, c₂, hrun', -, rfl⟩ := h'.accepted hc
  obtain ⟨rfl, -⟩ := Prod.mk.inj (Except.ok.inj (hrun.symm.trans hrun'))
  rfl

/-- In front of a line end some tokens are read, to the last, as an expression exactly if the grammar
derives this expression from them; and it derives no other. -/
theorem Parser.expr_accepts (tokens : List Lexeme) (span : Span) (e : Expr) :
    ((∃ e' c', Parser.expr (Cursor.ofList (tokens ++ [⟨.newline, span⟩])) = .ok (e', c') ∧
        c'.tokens = [.newline] ∧ e'.bare = e) ↔ Derives .expr (tokens.map Lexeme.token) e) ∧
      ∀ e', Derives .expr (tokens.map Lexeme.token) e →
        Derives .expr (tokens.map Lexeme.token) e' → e' = e := by
  have hc := Cursor.tokens_ofList tokens span
  refine ⟨⟨?_, fun h => h.accepted hc⟩, fun e' => Derives.unique⟩
  rintro ⟨e', c', hrun, hc', rfl⟩
  exact Parser.derives_of_expr hc hrun hc'

end ObjLang
