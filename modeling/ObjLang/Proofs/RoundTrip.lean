import ObjLang.Proofs.Token.Layout
import ObjLang.Proofs.Tree.Reread.Block

/-!
# ObjLang.Proofs.RoundTrip — reading a program that was written

The printer writes the definitions of a program kind by kind, and the reader takes them in any order.
So the text of the tree of a source text is a source text of the same tree, up to places.
-/

namespace ObjLang

open Token (bracketed StartsStmt Follows)

namespace Parser

/-! ### Classes -/

namespace ClassItem

/-- The tokens of a class item. -/
def tokens : ClassItem → List Token
  | field d => d.tokens
  | method d => d.tokens
  | pass => [.keyword .passKw, .newline]

/-- The class item without places. -/
def bare : ClassItem → ClassItem
  | field d => field d.bare
  | method d => method d.bare
  | pass => pass

theorem tokens_ne_nil (i : ClassItem) : i.tokens ≠ [] := by
  cases i with
  | field d => exact d.tokens_ne_nil
  | method d => exact d.tokens_ne_nil
  | pass => exact List.cons_ne_nil _ _

/-- The items of a class, in the order in which they are written. -/
def ordered (fields : List VarDef) (methods : List FunDef) : List ClassItem :=
  if fields.isEmpty && methods.isEmpty then [pass] else fields.map field ++ methods.map method

theorem filterMap_ordered (fields : List VarDef) (methods : List FunDef) :
    (ordered fields methods).filterMap field? = fields ∧
      (ordered fields methods).filterMap method? = methods := by
  unfold ordered
  split
  · next h =>
    rw [Bool.and_eq_true, List.isEmpty_iff, List.isEmpty_iff] at h
    obtain ⟨rfl, rfl⟩ := h
    exact ⟨rfl, rfl⟩
  · simp [List.filterMap_map, Function.comp_def, field?, method?]

theorem mem_ordered {fields : List VarDef} {methods : List FunDef} {i : ClassItem}
    (h : i ∈ ordered fields methods) :
    (∃ d ∈ fields, i = field d) ∨ (∃ d ∈ methods, i = method d) ∨ i = pass := by
  unfold ordered at h
  split at h
  · exact .inr (.inr (List.mem_singleton.1 h))
  · obtain h | h := List.mem_append.1 h
    · obtain ⟨d, hd, rfl⟩ := List.mem_map.1 h
      exact .inl ⟨d, hd, rfl⟩
    · obtain ⟨d, hd, rfl⟩ := List.mem_map.1 h
      exact .inr (.inl ⟨d, hd, rfl⟩)

end ClassItem

theorem reads_nextClassItem? {i : ClassItem} (hi : i.Written) {us : List Token} (hus : us ≠ []) :
    Reads nextClassItem? (i.tokens ++ us) us fun o => ∃ a, o = some a ∧ a.bare = i.bare := by
  refine Reads.get fun c hc => ?_
  cases i with
  | field d =>
    have hat := Cursor.atVarDef_of_tokens hc
    rw [current_eq hc]
    dsimp only
    rw [if_pos hat]
    exact (reads_varDef hi.binding hus).bind fun a ha => .pure ⟨_, rfl, congrArg ClassItem.field ha⟩
  | method d =>
    have hread := FunDef.Written.reads hi hus
    have htokens := d.tokens_append us
    rw [ClassItem.tokens] at hc ⊢
    rw [htokens] at hc
    rw [current_eq hc]
    exact hread.bind fun a ha => .pure ⟨_, rfl, congrArg ClassItem.method ha⟩
  | pass =>
    rw [current_eq hc]
    exact (reads_advance (by simp) (List.cons_ne_nil _ _)).bind fun _ _ =>
      (reads_expect _ (by simp) hus).bind fun _ _ => .pure ⟨_, rfl, rfl⟩

theorem reads_nextClassItem?_end (us : List Token) :
    Reads nextClassItem? (.dedent :: us) (.dedent :: us) (· = none) := by
  refine Reads.get fun c hc => ?_
  rw [current_eq hc]
  exact .pure rfl

end Parser

open ObjLang.Parser (Reads ClassItem TopDecl)

theorem ClassDef.tokens_append (k : ClassDef) (us : List Token) :
    k.tokens ++ us = .keyword .classKw :: .name k.name.name :: .symbol .leftParen ::
      .name k.superclass.name :: .symbol .rightParen :: .symbol .colon :: .newline :: .indent ::
        ((ClassItem.ordered k.fields k.methods).flatMap ClassItem.tokens ++ .dedent :: us) := by
  have hmembers : k.memberTokens = (ClassItem.ordered k.fields k.methods).flatMap ClassItem.tokens := by
    unfold ClassDef.memberTokens ClassItem.ordered
    split
    · rfl
    · simp only [List.flatMap_append, List.flatMap_map, ClassItem.tokens]
  rw [ClassDef.tokens, blockOf_append, hmembers]
  rfl

/-- The tokens of a class definition are read as the definition. -/
theorem ClassDef.Written.reads {k : ClassDef} (h : k.Written) {us : List Token} (hus : us ≠ []) :
    Reads Parser.classDef (k.tokens ++ us) us (·.bare = k.bare) := by
  have hitems : ∀ i ∈ ClassItem.ordered k.fields k.methods, i.Written := by
    intro i hi
    obtain ⟨d, hd, rfl⟩ | ⟨d, hd, rfl⟩ | rfl := ClassItem.mem_ordered hi
    · exact h.fields d hd
    · exact h.methods d hd
    · trivial
  have hcollect : Reads (Parser.collect Parser.nextClassItem?)
      ((ClassItem.ordered k.fields k.methods).flatMap ClassItem.tokens ++ .dedent :: us)
      (.dedent :: us) fun is =>
        is.map ClassItem.bare = (ClassItem.ordered k.fields k.methods).map ClassItem.bare :=
    Parser.reads_collect (P := (· ≠ [])) (fun i _ vs hvs => List.append_ne_nil_of_right_ne_nil _ hvs)
      (List.cons_ne_nil _ _) (Parser.reads_nextClassItem?_end us) (fun i _ => i.tokens_ne_nil)
      fun i hi vs hvs => Parser.reads_nextClassItem? (hitems i hi) hvs
  rw [ClassDef.tokens_append]
  refine (Parser.reads_expect _ (by simp) (List.cons_ne_nil _ _)).bind fun start _ =>
    (Parser.reads_ident _ (List.cons_ne_nil _ _)).bind fun name hname =>
      (Parser.reads_symbol _ (List.cons_ne_nil _ _)).bind fun _ _ =>
        (Parser.reads_ident _ (List.cons_ne_nil _ _)).bind fun superclass hsuperclass =>
          (Parser.reads_symbol _ (List.cons_ne_nil _ _)).bind fun _ _ => ?_
  refine (Parser.reads_symbol _ (List.cons_ne_nil _ _)).bind fun _ _ =>
    (Parser.reads_expect _ (by simp) (List.cons_ne_nil _ _)).bind fun _ _ =>
      (Parser.reads_expect _ (by simp) (by simp)).bind fun _ _ => hcollect.bind fun is his =>
        (Parser.reads_behind _).bind fun _ _ => (Parser.reads_expect _ (by simp) hus).bind
          fun _ _ => .pure ?_
  obtain ⟨hfields, hmethods⟩ := ClassItem.filterMap_ordered k.fields k.methods
  have hfield : ∀ i : ClassItem, i.bare.field? = i.field?.map VarDef.bare := by
    rintro (d | d | _) <;> rfl
  have hmethod : ∀ i : ClassItem, i.bare.method? = i.method?.map FunDef.bare := by
    rintro (d | d | _) <;> rfl
  simp only [ClassDef.bare, ClassDef.mk.injEq]
  refine ⟨?_, ?_, ?_, ?_, trivial⟩
  · rw [Ident.bare, Ident.bare, hname]
  · rw [Ident.bare, Ident.bare, hsuperclass]
  · rw [Parser.map_filterMap_comm hfield, his, ← Parser.map_filterMap_comm hfield, hfields]
  · rw [Parser.map_filterMap_comm hmethod, his, ← Parser.map_filterMap_comm hmethod, hmethods]

namespace Parser

/-! ### Programs -/

namespace TopDecl

/-- The tokens of a definition. -/
def tokens : TopDecl → List Token
  | var d => d.tokens
  | function d => d.tokens
  | classDef k => k.tokens

/-- The definition without places. -/
def bare : TopDecl → TopDecl
  | var d => var d.bare
  | function d => function d.bare
  | classDef k => classDef k.bare

theorem tokens_ne_nil (d : TopDecl) : d.tokens ≠ [] := by
  cases d with
  | var d => exact d.tokens_ne_nil
  | function d => exact d.tokens_ne_nil
  | classDef k => exact Token.blockOf_ne_nil _ _

/-- The definitions of a program, in the order in which they are written. -/
def ordered (p : Program) : List TopDecl :=
  p.vars.map var ++ (p.functions.map function ++ p.classes.map classDef)

theorem filterMap_ordered (p : Program) :
    (ordered p).filterMap var? = p.vars ∧ (ordered p).filterMap function? = p.functions ∧
      (ordered p).filterMap class? = p.classes := by
  simp [ordered, List.filterMap_map, Function.comp_def, var?, function?, class?]

theorem written_of_mem_ordered {p : Program} (h : p.Written) : ∀ d ∈ ordered p, d.Written := by
  intro d hd
  simp only [ordered, List.mem_append, List.mem_map] at hd
  obtain ⟨v, hv, rfl⟩ | ⟨e, he, rfl⟩ | ⟨k, hk, rfl⟩ := hd
  · exact h.vars v hv
  · exact h.functions e he
  · exact h.classes k hk

end TopDecl

theorem reads_nextTopDecl? {d : TopDecl} (hd : d.Written) {us : List Token} (hus : us ≠ []) :
    Reads nextTopDecl? (d.tokens ++ us) us fun o => ∃ a, o = some a ∧ a.bare = d.bare := by
  refine Reads.get fun c hc => ?_
  cases d with
  | var d =>
    have hat := Cursor.atVarDef_of_tokens hc
    rw [current_eq hc]
    dsimp only
    rw [if_pos hat]
    exact (reads_varDef hd.binding hus).bind fun a ha => .pure ⟨_, rfl, congrArg TopDecl.var ha⟩
  | function d =>
    have hread := FunDef.Written.reads hd hus
    have htokens := d.tokens_append us
    rw [TopDecl.tokens] at hc ⊢
    rw [htokens] at hc
    rw [current_eq hc]
    exact hread.bind fun a ha => .pure ⟨_, rfl, congrArg TopDecl.function ha⟩
  | classDef k =>
    have hread := ClassDef.Written.reads hd hus
    have htokens := k.tokens_append us
    rw [TopDecl.tokens] at hc ⊢
    rw [htokens] at hc
    rw [current_eq hc]
    exact hread.bind fun a ha => .pure ⟨_, rfl, congrArg TopDecl.classDef ha⟩

/-- Definitions end where a statement starts or nothing is left. -/
theorem reads_nextTopDecl?_end {us : List Token} (hus : StartsStmt us ∨ us = [.eof]) :
    Reads nextTopDecl? us us (· = none) := by
  refine Reads.get fun c hc => ?_
  have hvar : c.atVarDef = false := by
    refine Cursor.not_atVarDef ?_
    rw [hc]
    obtain hus | rfl := hus
    · exact hus.noVarDef
    · exact fun _ _ => nofun
  have hcurrent : c.current.token ≠ .keyword .defKw ∧ c.current.token ≠ .keyword .classKw := by
    obtain hus | rfl := hus
    · obtain ⟨t, ts, rfl, ht⟩ := hus.head
      rw [current_eq hc]
      constructor
      · rintro rfl
        cases ht
      · rintro rfl
        cases ht
    · rw [current_eq hc]
      exact ⟨nofun, nofun⟩
  split
  · next h => exact absurd h hcurrent.1
  · next h => exact absurd h hcurrent.2
  · rw [hvar, if_neg Bool.false_ne_true]
    exact .pure rfl

theorem reads_nextTopStmt? {s : Stmt} (hs : s.Written false) {us : List Token} (hus : Follows us) :
    Reads nextTopStmt? (s.tokens ++ us) us fun o => ∃ a, o = some a ∧ a.bare = s.bare := by
  refine Reads.get fun c hc => ?_
  have hstarts := hs.startsStmt us
  have hvar := Cursor.not_atVarDef (c := c) (by rw [hc]; exact hstarts.noVarDef)
  obtain ⟨t, ts, hts, ht⟩ := hstarts.head
  have hcurrent := current_eq (hc.trans hts)
  have hdecl : c.atDeclaration = false := by
    unfold Cursor.atDeclaration
    rw [hcurrent]
    split <;> first | cases ht | exact hvar
  rw [hdecl, if_neg (by rw [hcurrent]; rintro rfl; cases ht), if_neg Bool.false_ne_true]
  exact (hs.reads hus).bind fun a ha => .pure ⟨a, rfl, ha⟩

theorem reads_nextTopStmt?_end : Reads nextTopStmt? [.eof] [.eof] (· = none) := by
  refine Reads.get fun c hc => ?_
  rw [if_pos (current_eq hc)]
  exact .pure rfl

end Parser

/-- The token stream of a program is read as the program. -/
theorem Program.Written.reads {p : Program} (h : p.Written) :
    Reads Parser.program (p.tokens ++ [.eof]) [.eof] (·.bare = p.bare) := by
  have htokens : p.tokens ++ [.eof] =
      (TopDecl.ordered p).flatMap TopDecl.tokens ++ (p.body.flatMap Stmt.tokens ++ [.eof]) := by
    simp only [Program.tokens, TopDecl.ordered, List.flatMap_append, List.flatMap_map,
      TopDecl.tokens, List.append_assoc]
  have hend : StartsStmt (p.body.flatMap Stmt.tokens ++ [.eof]) ∨
      p.body.flatMap Stmt.tokens ++ [.eof] = [.eof] := by
    cases hbody : p.body with
    | nil => exact .inr rfl
    | cons s ss =>
      rw [List.flatMap_cons, List.append_assoc]
      exact .inl ((h.body s (hbody ▸ List.mem_cons_self)).startsStmt _)
  have hdecls : Reads (Parser.collect Parser.nextTopDecl?)
      ((TopDecl.ordered p).flatMap TopDecl.tokens ++ (p.body.flatMap Stmt.tokens ++ [.eof]))
      (p.body.flatMap Stmt.tokens ++ [.eof]) fun ds =>
        ds.map TopDecl.bare = (TopDecl.ordered p).map TopDecl.bare :=
    Parser.reads_collect (P := (· ≠ [])) (fun d _ vs hvs => List.append_ne_nil_of_right_ne_nil _ hvs)
      (by simp) (Parser.reads_nextTopDecl?_end hend) (fun d _ => d.tokens_ne_nil)
      fun d hd vs hvs =>
        Parser.reads_nextTopDecl? (Parser.TopDecl.written_of_mem_ordered h d hd) hvs
  have hbody : Reads (Parser.collect Parser.nextTopStmt?) (p.body.flatMap Stmt.tokens ++ [.eof])
      [.eof] fun ss => ss.map Stmt.bare = p.body.map Stmt.bare :=
    Parser.reads_collect (P := Follows)
      (fun s hs vs _ => ((h.body s hs).startsStmt vs).follows) ⟨_, _, rfl, nofun, nofun⟩
      Parser.reads_nextTopStmt?_end (fun s _ => s.tokens_ne_nil)
      fun s hs vs hvs => Parser.reads_nextTopStmt? (h.body s hs) hvs
  rw [htokens]
  refine (Parser.reads_here _).bind fun start _ => hdecls.bind fun ds hds => hbody.bind
    fun ss hss => (Parser.reads_here _).bind fun stop _ => .pure ?_
  obtain ⟨hvars, hfunctions, hclasses⟩ := Parser.TopDecl.filterMap_ordered p
  have hvar : ∀ d : TopDecl, d.bare.var? = d.var?.map VarDef.bare := by
    rintro (d | d | k) <;> rfl
  have hfunction : ∀ d : TopDecl, d.bare.function? = d.function?.map FunDef.bare := by
    rintro (d | d | k) <;> rfl
  have hclass : ∀ d : TopDecl, d.bare.class? = d.class?.map ClassDef.bare := by
    rintro (d | d | k) <;> rfl
  simp only [Program.bare, Program.mk.injEq]
  refine ⟨?_, ?_, ?_, hss, trivial⟩
  · rw [Parser.map_filterMap_comm hvar, hds, ← Parser.map_filterMap_comm hvar, hvars]
  · rw [Parser.map_filterMap_comm hfunction, hds, ← Parser.map_filterMap_comm hfunction, hfunctions]
  · rw [Parser.map_filterMap_comm hclass, hds, ← Parser.map_filterMap_comm hclass, hclasses]

/-- A written tree is the tree of its text, up to places. -/
theorem Program.Written.reparse {p : Program} (h : p.Written) :
    ∃ p', Program.parse p.print = .ok p' ∧ p'.bare = p.bare := by
  obtain ⟨tokens, htokenize, htokens⟩ := h.laid.tokenize_spell
  have hcursor : (Cursor.ofList tokens).tokens = p.tokens ++ [.eof] := by
    cases tokens with
    | nil => exact absurd htokens.symm (by simp)
    | cons l ls => exact htokens
  obtain ⟨p', c', hrun, -, hbare⟩ := h.reads _ hcursor
  refine ⟨p', ?_, hbare⟩
  unfold Program.parse
  rw [Program.print, htokenize]
  dsimp only [Parser.run, StateT.run]
  rw [hrun]
  rfl

/-- Printing the tree of a source text and reading the print again gives the same tree, up to
places. -/
theorem Program.parse_print {source : String} {p : Program} (h : Program.parse source = .ok p) :
    ∃ p', Program.parse p.print = .ok p' ∧ p'.bare = p.bare :=
  (Program.parse_written h).reparse

/-- A program written with much freedom: definitions in another order, a wide block, brackets only
where they are needed. -/
def crowded : String :=
  "def f(n:int)->int:\n      x:int=-5\n      global low\n      if not n<-1-x: # small\n" ++
  "          return\n      return n.m().y*-2147483648\nclass A( object ):\n\tpass\nlow :int= 7\n"

/-- The one way in which the same program is printed. -/
def crowdedPrint : String :=
  "low: int = 7\ndef f(n: int) -> int:\n  global low\n  x: int = -5\n" ++
  "  if (not (n < ((-1) - x))):\n    return None\n" ++
  "  return (((n).m()).y * -2147483648)\nclass A(object):\n  pass\n"

theorem crowded_print :
    (Program.parse crowded).toOption.any (fun p => p.print == crowdedPrint) = true := by
  decide +kernel

theorem Program.parse_print_crowded : ∃ p p', Program.parse crowded = .ok p ∧
    p.print = crowdedPrint ∧ Program.parse crowdedPrint = .ok p' ∧ p'.bare = p.bare := by
  obtain ⟨p, hp, hprint⟩ := toOption_any_eq_true.1 crowded_print
  have heq : p.print = crowdedPrint := beq_iff_eq.1 hprint
  obtain ⟨p', hp', hbare⟩ := Program.parse_print hp
  exact ⟨p, p', hp, heq, heq ▸ hp', hbare⟩

end ObjLang
