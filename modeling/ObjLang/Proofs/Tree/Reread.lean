import ObjLang.Proofs.Tree.Print

/-!
# ObjLang.Proofs.Tree.Reread — reading a token stream that is known

A parser reads a stream up to some rest if it succeeds wherever the tokens ahead are the stream, and
then stands before the rest.  Only tokens count: the places that come with them are arbitrary, and so
are those in the tree that is read.
-/

namespace ObjLang

open Token (separated bracketed)

namespace Parser

variable {α β γ : Type}

/-! ### Reading -/

/-- Where the tokens ahead are `before`, the parser gives a value with the property and stands before
`after`. -/
def Reads (p : Parser α) (before after : List Token) (Q : α → Prop) : Prop :=
  ∀ c : Cursor, c.tokens = before → ∃ a c', p c = .ok (a, c') ∧ c'.tokens = after ∧ Q a

namespace Reads

variable {s t u : List Token} {Q : α → Prop} {R : β → Prop}

theorem pure {a : α} (h : Q a) : Reads (Pure.pure a) s s Q :=
  fun c hc => ⟨a, c, rfl, hc, h⟩

theorem bind {p : Parser α} {f : α → Parser β} (hp : Reads p s t Q)
    (hf : ∀ a, Q a → Reads (f a) t u R) : Reads (p >>= f) s u R := by
  intro c hc
  obtain ⟨a, c₁, h₁, hc₁, ha⟩ := hp c hc
  obtain ⟨b, c₂, h₂, hc₂, hb⟩ := hf a ha c₁ hc₁
  exact ⟨b, c₂, bind_eq_ok.2 ⟨a, c₁, h₁, h₂⟩, hc₂, hb⟩

theorem imp {p : Parser α} {Q' : α → Prop} (hp : Reads p s t Q) (h : ∀ a, Q a → Q' a) :
    Reads p s t Q' := by
  intro c hc
  obtain ⟨a, c', hrun, hc', ha⟩ := hp c hc
  exact ⟨a, c', hrun, hc', h a ha⟩

theorem get {f : Cursor → Parser β} (hf : ∀ c : Cursor, c.tokens = s → Reads (f c) s u R) :
    Reads (MonadState.get >>= f) s u R := by
  intro c hc
  obtain ⟨b, c', hrun, hc', hb⟩ := hf c hc c hc
  exact ⟨b, c', bind_eq_ok.2 ⟨c, c, rfl, hrun⟩, hc', hb⟩

end Reads

theorem left_eq {c : Cursor} {s : List Token} (h : c.tokens = s) : c.left + 1 = s.length := by
  rw [← h, Cursor.tokens, List.length_map, List.length_cons, Cursor.left]

theorem current_eq {c : Cursor} {t : Token} {ts : List Token} (h : c.tokens = t :: ts) :
    c.current.token = t :=
  (List.cons.inj h).1

theorem reads_peek (t : Token) (ts : List Token) : Reads peek (t :: ts) (t :: ts) (· = t) :=
  Reads.get fun _ hc => .pure (current_eq hc)

theorem Reads.peek {f : Token → Parser β} {R : β → Prop} {t : Token} {ts us : List Token}
    (h : Reads (f t) (t :: ts) us R) : Reads (Parser.peek >>= f) (t :: ts) us R :=
  (reads_peek t ts).bind fun _ hv => hv ▸ h

theorem reads_here (s : List Token) : Reads here s s fun _ => True :=
  Reads.get fun _ _ => .pure trivial

theorem reads_behind (s : List Token) : Reads behind s s fun _ => True :=
  Reads.get fun _ _ => .pure trivial

theorem reads_advance {t : Token} {ts : List Token} (ht : t ≠ .eof) (hts : ts ≠ []) :
    Reads advance (t :: ts) ts fun _ => True := by
  intro c hc
  refine ⟨c.current.span, c.next, advance_eq_ok.2 rfl, ?_, trivial⟩
  obtain ⟨hcurrent, hahead⟩ := List.cons.inj hc
  unfold Cursor.next
  rw [if_neg (by rw [hcurrent]; exact ht)]
  cases hcs : c.ahead with
  | nil =>
    rw [hcs, List.map_nil] at hahead
    exact absurd hahead.symm hts
  | cons l ls =>
    rw [hcs] at hahead
    exact hahead

theorem Reads.eat {f : Bool → Parser β} {R : β → Prop} {t : Token} {ts us : List Token}
    (ht : t ≠ .eof) (hts : ts ≠ []) (h : Reads (f true) ts us R) :
    Reads (Parser.eat t >>= f) (t :: ts) us R := by
  have heat : Reads (Parser.eat t) (t :: ts) ts (· = true) := by
    refine .peek ?_
    rw [if_pos rfl]
    exact (reads_advance ht hts).bind fun _ _ => .pure rfl
  exact heat.bind fun _ hb => hb ▸ h

theorem Reads.eat_of_ne {f : Bool → Parser β} {R : β → Prop} {t u : Token} {ts us : List Token}
    (hne : u ≠ t) (h : Reads (f false) (u :: ts) us R) :
    Reads (Parser.eat t >>= f) (u :: ts) us R := by
  have heat : Reads (Parser.eat t) (u :: ts) (u :: ts) (· = false) := by
    refine .peek ?_
    rw [if_neg hne]
    exact .pure rfl
  exact heat.bind fun _ hb => hb ▸ h

theorem reads_expect {t : Token} {ts : List Token} (what : String) (ht : t ≠ .eof) (hts : ts ≠ []) :
    Reads (expect t what) (t :: ts) ts fun _ => True := by
  refine .peek ?_
  rw [if_pos rfl]
  exact reads_advance ht hts

theorem reads_symbol {s : Symbol} {ts : List Token} (what : String) (hts : ts ≠ []) :
    Reads (expectSymbol s what) (.symbol s :: ts) ts fun _ => True :=
  reads_expect what (by simp) hts

theorem reads_ident {x : String} {ts : List Token} (what : String) (hts : ts ≠ []) :
    Reads (ident what) (.name x :: ts) ts (·.name = x) := by
  refine .peek ?_
  dsimp only
  exact (reads_advance (by simp) hts).bind fun _ _ => .pure rfl

/-! ### Repetition -/

section

variable {f : β → List Token} {g : α → γ} {h : β → γ} {P : List Token → Prop} {rest : List Token}
  {next : Parser (Option α)}

theorem length_le_flatMap {bs : List β} {b : β} (hb : b ∈ bs) :
    (f b).length ≤ (bs.flatMap f).length := by
  obtain ⟨as, cs, rfl⟩ := List.append_of_mem hb
  rw [List.flatMap_append, List.flatMap_cons, List.length_append, List.length_append]
  omega

theorem forall_flatMap_append (hrest : P rest) :
    ∀ bs : List β, (∀ b ∈ bs, ∀ us, P us → P (f b ++ us)) → P (bs.flatMap f ++ rest)
  | [], _ => hrest
  | b :: bs, hP => by
    rw [List.flatMap_cons, List.append_assoc]
    exact hP b List.mem_cons_self _
      (forall_flatMap_append hrest bs fun c hc => hP c (List.mem_cons_of_mem b hc))

theorem reads_collectUpTo (hrest : P rest) (hend : Reads next rest rest (· = none)) :
    ∀ (bs : List β) (n : Nat), bs.length < n → (∀ b ∈ bs, ∀ us, P us → P (f b ++ us)) →
      (∀ b ∈ bs, ∀ us, P us → Reads next (f b ++ us) us fun o => ∃ a, o = some a ∧ g a = h b) →
      Reads (collectUpTo next n) (bs.flatMap f ++ rest) rest fun as => as.map g = bs.map h
  | [], n, hn, _, _ => by
    obtain ⟨n, rfl⟩ := Nat.exists_eq_succ_of_ne_zero (Nat.ne_of_gt hn)
    refine hend.bind fun o ho => ?_
    subst ho
    exact .pure rfl
  | b :: bs, n, hn, hP, hstep => by
    obtain ⟨n, rfl⟩ := Nat.exists_eq_succ_of_ne_zero (Nat.ne_of_gt (Nat.zero_lt_of_lt hn))
    have hPs := fun c hc => hP c (List.mem_cons_of_mem b hc)
    rw [List.flatMap_cons, List.append_assoc]
    refine (hstep b List.mem_cons_self _ (forall_flatMap_append hrest bs hPs)).bind fun o ho => ?_
    obtain ⟨a, rfl, ha⟩ := ho
    refine (reads_collectUpTo hrest hend bs n (Nat.lt_of_succ_lt_succ hn) hPs
      fun c hc => hstep c (List.mem_cons_of_mem b hc)).bind fun as has => .pure ?_
    rw [List.map_cons, List.map_cons, ha, has]

/-- A repetition reads streams one after the other.  Each is read before everything that the next one
or the rest can start with. -/
theorem reads_collect {bs : List β} (hP : ∀ b ∈ bs, ∀ us, P us → P (f b ++ us)) (hrest : P rest)
    (hend : Reads next rest rest (· = none)) (hne : ∀ b ∈ bs, f b ≠ [])
    (hstep : ∀ b ∈ bs, ∀ us, P us → Reads next (f b ++ us) us fun o => ∃ a, o = some a ∧ g a = h b) :
    Reads (collect next) (bs.flatMap f ++ rest) rest fun as => as.map g = bs.map h := by
  refine Reads.get fun c hc => reads_collectUpTo hrest hend bs _ ?_ hP hstep
  have hleft := left_eq hc
  have hlength : bs.length ≤ (bs.flatMap f).length := by
    clear hP hstep hc hleft
    induction bs with
    | nil => exact Nat.zero_le _
    | cons b bs ih =>
      have hb := List.length_pos_iff.2 (hne b List.mem_cons_self)
      have hbs := ih fun c hc => hne c (List.mem_cons_of_mem b hc)
      rw [List.flatMap_cons, List.length_append, List.length_cons]
      omega
  rw [List.length_append] at hleft
  omega

end

theorem reads_foldMore_none {more : α → Parser (Option α)} {a : α} {s : List Token}
    (h : Reads (more a) s s (· = none)) : Reads (foldMore more a) s s (· = a) := by
  refine Reads.get fun c _ => h.bind fun o ho => ?_
  subst ho
  exact .pure rfl

theorem length_le_separated {ts : List Token} {tss : List (List Token)} (h : ts ∈ tss) :
    ts.length ≤ (separated tss).length := by
  cases tss with
  | nil => exact absurd h List.not_mem_nil
  | cons us tss =>
    rw [separated, List.length_append]
    obtain rfl | h := List.mem_cons.1 h
    · exact Nat.le_add_right _ _
    · have hle := length_le_flatMap (f := fun us => .symbol .comma :: us) h
      rw [List.length_cons] at hle
      omega

/-- Lists with commas, before the closing bracket. -/
theorem reads_commaSeparated {f : β → List Token} {g : α → γ} {h : β → γ} {item : Parser α}
    {bs : List β} {rest : List Token}
    (hhead : ∀ b ∈ bs, ∃ t ts, f b = t :: ts ∧ t ≠ .symbol .rightParen)
    (hitem : ∀ b ∈ bs, ∀ t ts, t = .symbol .comma ∨ t = .symbol .rightParen →
      Reads item (f b ++ t :: ts) (t :: ts) fun a => g a = h b) :
    Reads (commaSeparated item) (separated (bs.map f) ++ .symbol .rightParen :: rest)
      (.symbol .rightParen :: rest) fun as => as.map g = bs.map h := by
  cases bs with
  | nil =>
    refine .peek ?_
    rw [if_pos rfl]
    exact .pure rfl
  | cons b bs =>
    obtain ⟨t, ts, hts, ht⟩ := hhead b List.mem_cons_self
    have hpeek : Reads peek (separated ((b :: bs).map f) ++ .symbol .rightParen :: rest)
        (separated ((b :: bs).map f) ++ .symbol .rightParen :: rest) (· = t) := by
      rw [List.map_cons, separated, hts]
      exact reads_peek t _
    refine hpeek.bind fun s hs => ?_
    rw [if_neg (by rw [hs]; exact ht), List.map_cons, separated, List.append_assoc, List.flatMap_map]
    let starts : List Token → Prop := fun us =>
      ∃ u us', us = u :: us' ∧ (u = .symbol .comma ∨ u = .symbol .rightParen)
    have hstarts : starts (bs.flatMap (fun b => .symbol .comma :: f b) ++
        .symbol .rightParen :: rest) := by
      cases bs with
      | nil => exact ⟨_, _, rfl, .inr rfl⟩
      | cons b' bs => exact ⟨_, _, rfl, .inl rfl⟩
    obtain ⟨u, us, hus, hu⟩ := hstarts
    have hfirst := hitem b List.mem_cons_self u us hu
    rw [← hus] at hfirst
    refine hfirst.bind fun a ha => ?_
    refine (reads_collect (f := fun b => .symbol .comma :: f b) (g := g) (h := h) (P := starts)
      ?_ ⟨_, _, rfl, .inr rfl⟩ ?_ ?_ ?_).bind fun as has => .pure ?_
    · rintro c - vs -
      exact ⟨_, _, rfl, .inl rfl⟩
    · refine .eat_of_ne (by simp) ?_
      exact .pure rfl
    · exact fun c _ => List.cons_ne_nil _ _
    · rintro c hc _ ⟨v, vs, rfl, hv⟩
      refine .eat (by simp) (by simp) ?_
      exact (hitem c (List.mem_cons_of_mem b hc) v vs hv).bind fun a ha => .pure ⟨a, rfl, ha⟩
    · rw [List.map_cons, List.map_cons, ha, has]

end Parser

end ObjLang
