import Mathlib.Data.List.GetD
import ObjLang.Proofs.Tree.Grammar

/-!
# ObjLang.Proofs.Tree.Moves — how far a parser goes

In a stream that ends with `eof` a cursor moves over tokens other than `eof`, one at a time.  Two
parsers agree up to a number of tokens if, wherever fewer are left, they give the same: a fault of the
text, or a value with the cursor a given number of tokens further on.  A parser that agrees with itself
is one that goes that far.
-/

namespace ObjLang

/-! ### Cursors -/

/-- The stream ends with `eof`. -/
def Cursor.Closed (c : Cursor) : Prop := c.tokens.getLast? = some .eof

/-- From one cursor to another that is some tokens further on, over tokens other than `eof`. -/
inductive Cursor.Moves : Nat → Cursor → Cursor → Prop
  | stay (c : Cursor) : Moves 0 c c
  | step {k : Nat} {c c' : Cursor} (hcurrent : c.current.token ≠ .eof) (hrest : Moves k c.next c') :
    Moves (k + 1) c c'

namespace Cursor

theorem Closed.next {c : Cursor} (h : c.Closed) (hcurrent : c.current.token ≠ .eof) :
    c.next.Closed ∧ c.next.left + 1 = c.left := by
  unfold Cursor.next
  rw [if_neg hcurrent]
  unfold Closed tokens at h
  cases hahead : c.ahead with
  | nil =>
    rw [hahead] at h
    exact absurd (Option.some.inj h) hcurrent
  | cons l ls =>
    rw [hahead, List.map_cons, List.map_cons, List.getLast?_cons_cons] at h
    refine ⟨?_, ?_⟩
    · show ((l :: ls).map Lexeme.token).getLast? = _
      rw [List.map_cons, h]
    · show ls.length + 1 = c.ahead.length
      rw [hahead, List.length_cons]

theorem Moves.closed {k : Nat} {c c' : Cursor} (h : c.Moves k c') (hc : c.Closed) :
    c'.Closed ∧ c'.left + k = c.left := by
  induction h with
  | stay c => exact ⟨hc, rfl⟩
  | step hcurrent _ ih =>
    obtain ⟨hnext, hleft⟩ := hc.next hcurrent
    obtain ⟨hc', hleft'⟩ := ih hnext
    exact ⟨hc', by omega⟩

theorem Moves.trans {j k : Nat} {c c₁ c' : Cursor} (h : c.Moves j c₁) (h' : c₁.Moves k c') :
    c.Moves (j + k) c' := by
  induction h with
  | stay c => rwa [Nat.zero_add]
  | step hcurrent _ ih =>
    rw [Nat.succ_add]
    exact .step hcurrent (ih h')

/-! ### Places in a list of tokens -/

/-- The cursor on a token of a list. -/
def on (tokens : List Lexeme) (i : Nat) : Cursor where
  current := tokens.getD i ⟨.eof, default⟩
  ahead := tokens.drop (i + 1)
  previous := (tokens.getD (i - 1) ⟨.eof, default⟩).span

theorem ofList_eq_on (tokens : List Lexeme) : ofList tokens = on tokens 0 := by
  cases tokens <;> rfl

/-- The tokens with `eof` behind them. -/
def closing (tokens : List Lexeme) (span : Span) : List Lexeme := tokens ++ [⟨.eof, span⟩]

variable {tokens : List Lexeme} {span : Span} {i k : Nat}

theorem tokens_on (hi : i < tokens.length) :
    (on tokens i).tokens = (tokens.drop i).map Lexeme.token := by
  unfold Cursor.tokens on
  rw [List.drop_eq_getElem_cons hi, List.getD_eq_getElem _ _ hi]

theorem left_on (tokens : List Lexeme) (i : Nat) : (on tokens i).left = tokens.length - (i + 1) :=
  List.length_drop

theorem closed_on (hi : i < (closing tokens span).length) :
    (on (closing tokens span) i).Closed := by
  unfold Closed
  rw [tokens_on hi, List.getLast?_map, List.getLast?_drop, if_neg (Nat.not_le_of_lt hi), closing,
    List.getLast?_concat]
  rfl

theorem next_on (hi : i + 1 < tokens.length) (hcurrent : (on tokens i).current.token ≠ .eof) :
    (on tokens i).next = on tokens (i + 1) := by
  unfold Cursor.next
  rw [if_neg hcurrent]
  have hahead : (on tokens i).ahead = tokens[i + 1] :: tokens.drop (i + 2) :=
    List.drop_eq_getElem_cons hi
  rw [hahead]
  show _ = Cursor.mk _ _ _
  rw [List.getD_eq_getElem _ _ hi]
  rfl

/-- In a list that ends with `eof` a cursor moves to a token of the list, and over no `eof`. -/
theorem Moves.on {c' : Cursor} (h : (on (closing tokens span) i).Moves k c')
    (hi : i < (closing tokens span).length) :
    i + k < (closing tokens span).length ∧ c' = Cursor.on (closing tokens span) (i + k) ∧
      ∀ j, i ≤ j → j < i + k → (Cursor.on (closing tokens span) j).current.token ≠ .eof := by
  induction k generalizing i with
  | zero =>
    cases h
    exact ⟨hi, rfl, fun j hj hj' => absurd hj (Nat.not_le_of_lt hj')⟩
  | succ k ih =>
    cases h with
    | step hcurrent hrest =>
      have hnext := ((closed_on hi).next hcurrent).2
      rw [left_on] at hnext
      have hi' : i + 1 < (closing tokens span).length := by omega
      rw [next_on hi' hcurrent] at hrest
      obtain ⟨hlt, hc', hall⟩ := ih hrest hi'
      refine ⟨by omega, by rw [hc', Nat.add_assoc, Nat.add_comm 1], fun j hj hj' => ?_⟩
      by_cases hij : j = i
      · rw [hij]
        exact hcurrent
      · exact hall j (by omega) (by omega)

end Cursor

namespace Parser

variable {α β : Type} {n m : Nat} {t : Token} {K L : α → Nat}

/-! ### Agreement -/

/-- From a cursor, two parsers give the same: a fault of the text, or a value and a cursor that is at
least as many tokens further on as the value tells. -/
structure AgreeFrom (c : Cursor) (p q : Parser α) (K : α → Nat) : Prop where
  eq : p c = q c
  fault : ∀ e, p c = .error e → e.cause ≠ .broken .tooDeep
  moves : ∀ a c', p c = .ok (a, c') → ∃ k, K a ≤ k ∧ c.Moves k c'

/-- Two parsers agree in front of `t` where fewer than `n` tokens follow. -/
def AgreeAt (t : Token) (n : Nat) (p q : Parser α) (K : α → Nat) : Prop :=
  ∀ c : Cursor, c.Closed → c.left < n → c.current.token = t → AgreeFrom c p q K

/-- Two parsers agree where fewer than `n` tokens follow. -/
def Agree (n : Nat) (p q : Parser α) (K : α → Nat) : Prop := ∀ t, AgreeAt t n p q K

/-- Number of tokens that a step of a repetition reads at least: one if it goes on. -/
def taken : Option α → Nat
  | none => 0
  | some _ => 1

section

variable {p p' q : Parser α} {f f' : α → Parser β} {M : β → Nat}

theorem AgreeAt.ofAgree (h : Agree n p q K) : AgreeAt t n p q K := h t

theorem Agree.at_cursor (h : Agree n p q K) {c : Cursor} (hc : c.Closed) (hn : c.left < n) :
    AgreeFrom c p q K :=
  h _ c hc hn rfl

/-- Behind a parser that reads `K a` tokens there are as many less to agree on. -/
theorem AgreeAt.bind (hp : AgreeAt t n p p' K)
    (hf : ∀ a, Agree (n - K a) (f a) (f' a) fun b => M b - K a) :
    AgreeAt t n (p >>= f) (p' >>= f') M := by
  intro c hc hn ht
  have h := hp c hc hn ht
  cases hrun : p c with
  | error e =>
    have hleft : (p >>= f) c = .error e := bind_eq_error.2 (.inl hrun)
    have hright : (p' >>= f') c = .error e := bind_eq_error.2 (.inl (h.eq ▸ hrun))
    refine ⟨hleft.trans hright.symm, fun e' he' => ?_, fun b c' hb => ?_⟩
    · rw [hleft] at he'
      cases he'
      exact h.fault e hrun
    · rw [hleft] at hb
      cases hb
  | ok r =>
    obtain ⟨a, c₁⟩ := r
    obtain ⟨k, hk, hmoves⟩ := h.moves a c₁ hrun
    obtain ⟨hc₁, hleft₁⟩ := hmoves.closed hc
    have h₁ := (hf a).at_cursor hc₁ (by omega)
    have hrun' : p' c = .ok (a, c₁) := h.eq ▸ hrun
    have hleft : (p >>= f) c = f a c₁ := by
      simp only [Bind.bind, StateT.bind, Except.bind, hrun]
    have hright : (p' >>= f') c = f' a c₁ := by
      simp only [Bind.bind, StateT.bind, Except.bind, hrun']
    refine ⟨?_, ?_, ?_⟩
    · rw [hleft, hright, h₁.eq]
    · rw [hleft]
      exact h₁.fault
    · intro b c' hb
      rw [hleft] at hb
      obtain ⟨l, hl, hmoves'⟩ := h₁.moves b c' hb
      exact ⟨k + l, by omega, hmoves.trans hmoves'⟩

theorem Agree.bind (hp : Agree n p p' K)
    (hf : ∀ a, Agree (n - K a) (f a) (f' a) fun b => M b - K a) :
    Agree n (p >>= f) (p' >>= f') M :=
  fun t => (hp t).bind hf

theorem AgreeAt.weaken (h : AgreeAt t n p q K) (hm : m ≤ n) (hL : ∀ a, L a ≤ K a) :
    AgreeAt t m p q L := by
  intro c hc hn ht
  obtain ⟨heq, hfault, hmoves⟩ := h c hc (Nat.lt_of_lt_of_le hn hm) ht
  refine ⟨heq, hfault, fun a c' hrun => ?_⟩
  obtain ⟨k, hk, hc'⟩ := hmoves a c' hrun
  exact ⟨k, Nat.le_trans (hL a) hk, hc'⟩

theorem Agree.weaken (h : Agree n p q K) (hm : m ≤ n) (hL : ∀ a, L a ≤ K a) : Agree m p q L :=
  fun t => (h t).weaken hm hL

theorem Agree.self (h : Agree n p q K) : Agree n p p K := by
  intro t c hc hn ht
  obtain ⟨-, hfault, hmoves⟩ := h t c hc hn ht
  exact ⟨rfl, hfault, hmoves⟩

theorem Agree.later (h : Agree n p q K) : Agree (n - 1) p q K :=
  h.weaken (Nat.sub_le n 1) fun _ => Nat.le_refl _

theorem Agree.free (h : Agree n p q K) : Agree n p q fun _ => 0 :=
  h.weaken (Nat.le_refl n) fun _ => Nat.zero_le _

theorem Agree.pure {a : α} (h : K a = 0) : Agree n (Pure.pure a : Parser α) (Pure.pure a) K := by
  intro t c hc hn ht
  refine ⟨rfl, nofun, fun b c' hrun => ?_⟩
  obtain ⟨rfl, rfl⟩ := Prod.mk.inj (pure_eq_ok.1 hrun)
  exact ⟨0, Nat.le_of_eq h, .stay _⟩

theorem Agree.throw {e : ParseError} (h : e.cause ≠ .broken .tooDeep) :
    Agree n (MonadExcept.throw e : Parser α) (MonadExcept.throw e) K := by
  intro t c hc hn ht
  refine ⟨rfl, fun e' he' => ?_, fun a c' hrun => (throw_eq_ok.1 hrun).elim⟩
  cases he'
  exact h

/-- Two parsers that start with a look at the cursor. -/
theorem Agree.get {f f' : Cursor → Parser α} (hf : ∀ c, AgreeAt c.current.token n (f c) (f' c) K) :
    Agree n (MonadState.get >>= f) (MonadState.get >>= f') K := by
  intro t c hc hn ht
  obtain ⟨heq, hfault, hmoves⟩ := hf c c hc hn rfl
  exact ⟨heq, hfault, hmoves⟩

/-- Two parsers that start with a look at the current token. -/
theorem AgreeAt.peek {f f' : Token → Parser α} (hf : AgreeAt t n (f t) (f' t) K) :
    AgreeAt t n (Parser.peek >>= f) (Parser.peek >>= f') K := by
  rintro c hc hn rfl
  obtain ⟨heq, hfault, hmoves⟩ := hf c hc hn rfl
  exact ⟨heq, hfault, hmoves⟩

/-- A look at the place of the current token does not move the cursor. -/
theorem AgreeAt.here {f f' : Span → Parser α} (hf : ∀ s, AgreeAt t n (f s) (f' s) K) :
    AgreeAt t n (Parser.here >>= f) (Parser.here >>= f') K := by
  intro c hc hn ht
  obtain ⟨heq, hfault, hmoves⟩ := hf c.current.span c hc hn ht
  exact ⟨heq, hfault, hmoves⟩

theorem Agree.peek {f f' : Token → Parser α} (hf : ∀ t, AgreeAt t n (f t) (f' t) K) :
    Agree n (Parser.peek >>= f) (Parser.peek >>= f') K :=
  fun t => (hf t).peek

/-- Two parsers with a bound from the number of tokens left. -/
theorem Agree.limited {f f' : Nat → Parser α}
    (h : ∀ k j, k ≤ n → k ≤ j → Agree k (f j) (f' j) K) :
    Agree n (MonadState.get >>= fun c => f (c.left + 2))
      (MonadState.get >>= fun c => f' (c.left + 2)) K := by
  intro t c hc hn ht
  obtain ⟨heq, hfault, hmoves⟩ :=
    (h (c.left + 1) (c.left + 2) hn (Nat.le_succ _)).at_cursor hc (Nat.lt_succ_self _)
  exact ⟨heq, hfault, hmoves⟩

/-- Such a parser agrees with what it agrees with under any bound that is large enough. -/
theorem Agree.left {f : Nat → Parser α} {q : Parser α}
    (h : ∀ k j, k ≤ n → k ≤ j → Agree k (f j) q K) :
    Agree n (MonadState.get >>= fun c => f (c.left + 2)) q K :=
  Agree.limited h

theorem Agree.zero (p q : Parser α) (K : α → Nat) : Agree 0 p q K :=
  fun _ _ _ hn _ => absurd hn (Nat.not_lt_zero _)

/-- Where both parsers take the same branch. -/
theorem AgreeAt.ite {b : Prop} [Decidable b] {p₁ q₁ p₂ q₂ : Parser α}
    (h₁ : b → AgreeAt t n p₁ q₁ K) (h₂ : ¬ b → AgreeAt t n p₂ q₂ K) :
    AgreeAt t n (if b then p₁ else p₂) (if b then q₁ else q₂) K := by
  by_cases hb : b
  · rw [if_pos hb, if_pos hb]
    exact h₁ hb
  · rw [if_neg hb, if_neg hb]
    exact h₂ hb

theorem Agree.ite {b : Prop} [Decidable b] {p₁ q₁ p₂ q₂ : Parser α} (h₁ : b → Agree n p₁ q₁ K)
    (h₂ : ¬ b → Agree n p₂ q₂ K) : Agree n (if b then p₁ else p₂) (if b then q₁ else q₂) K :=
  fun _ => .ite (fun hb => .ofAgree (h₁ hb)) fun hb => .ofAgree (h₂ hb)

end

/-! ### Single tokens -/

section

theorem agree_advance : Agree n advance advance fun _ => 0 := by
  intro t c hc hn ht
  refine ⟨rfl, nofun, fun s c' hrun => ?_⟩
  obtain ⟨-, rfl⟩ := Prod.mk.inj (advance_eq_ok.1 hrun)
  by_cases heof : c.current.token = .eof
  · have hnext : c.next = c := if_pos heof
    rw [hnext]
    exact ⟨0, Nat.le_refl 0, .stay c⟩
  · exact ⟨1, Nat.zero_le 1, .step heof (.stay _)⟩

theorem agreeAt_advance (ht : t ≠ .eof) : AgreeAt t n advance advance fun _ => 1 := by
  rintro c hc hn rfl
  refine ⟨rfl, nofun, fun s c' hrun => ?_⟩
  obtain ⟨-, rfl⟩ := Prod.mk.inj (advance_eq_ok.1 hrun)
  exact ⟨1, Nat.le_refl 1, .step ht (.stay _)⟩

theorem agree_here : Agree n here here fun _ => 0 := .get fun _ => .ofAgree (.pure rfl)

theorem agree_behind : Agree n behind behind fun _ => 0 := .get fun _ => .ofAgree (.pure rfl)

theorem agree_fail {cause : ParseError.Cause} (h : cause ≠ .broken .tooDeep) :
    Agree n (fail cause : Parser α) (fail cause) K :=
  agree_here.bind fun _ => .throw h

theorem agree_unexpected (what : String) : Agree n (unexpected what : Parser α) (unexpected what) K :=
  .peek fun _ => .ofAgree (agree_fail (by simp))

theorem agree_eat {u : Token} (hu : u ≠ .eof) :
    Agree n (eat u) (eat u) fun b => if b then 1 else 0 := by
  refine .peek fun t => ?_
  by_cases ht : t = u
  · rw [if_pos ht]
    exact (agreeAt_advance (ht ▸ hu)).bind fun _ => .pure rfl
  · rw [if_neg ht]
    exact .ofAgree (.pure (by simp))

theorem agree_expect {u : Token} (hu : u ≠ .eof) (what : String) :
    Agree n (expect u what) (expect u what) fun _ => 1 := by
  refine .peek fun t => ?_
  by_cases ht : t = u
  · rw [if_pos ht]
    exact agreeAt_advance (ht ▸ hu)
  · rw [if_neg ht]
    exact .ofAgree (agree_unexpected what)

theorem agree_symbol (s : Symbol) (what : String) :
    Agree n (expectSymbol s what) (expectSymbol s what) fun _ => 1 :=
  agree_expect (by simp) what

theorem agree_ident (what : String) : Agree n (ident what) (ident what) fun _ => 1 := by
  refine .peek fun t => ?_
  split
  · exact (agreeAt_advance (by simp)).bind fun _ => .pure rfl
  · exact .ofAgree (agree_unexpected what)

end

/-! ### Repetition -/

section

variable {next next' : Parser (Option α)} {more more' : α → Parser (Option α)}

theorem agree_collectUpTo (h : Agree n next next' taken) {j k : Nat} (hk : k ≤ n) (hj : k ≤ j) :
    Agree k (collectUpTo next j) (collectUpTo next' j) fun _ => 0 := by
  induction j generalizing k with
  | zero =>
    obtain rfl := Nat.le_zero.1 hj
    exact .zero _ _ _
  | succ j ih =>
    refine (h.weaken hk fun _ => Nat.le_refl _).bind fun o => ?_
    cases o with
    | none => exact .pure rfl
    | some a =>
      have hj' : k - 1 ≤ j := by omega
      exact (ih (by show k - 1 ≤ n; omega) hj').bind fun as => .pure rfl

/-- A repetition that goes on over a token only. -/
theorem agree_collect (h : Agree n next next' taken) :
    Agree n (collect next) (collect next') fun _ => 0 :=
  .limited fun _ _ hk hj => agree_collectUpTo h hk hj

theorem agree_foldMoreUpTo (h : ∀ a, Agree n (more a) (more' a) taken) {j k : Nat} (hk : k ≤ n)
    (hj : k ≤ j) (a : α) :
    Agree k (foldMoreUpTo more j a) (foldMoreUpTo more' j a) fun _ => 0 := by
  induction j generalizing k a with
  | zero =>
    obtain rfl := Nat.le_zero.1 hj
    exact .zero _ _ _
  | succ j ih =>
    refine ((h a).weaken hk fun _ => Nat.le_refl _).bind fun o => ?_
    cases o with
    | none => exact .pure rfl
    | some b =>
      have hj' : k - 1 ≤ j := by omega
      exact ih (by show k - 1 ≤ n; omega) hj' b

theorem agree_foldMore (h : ∀ a, Agree n (more a) (more' a) taken) (a : α) :
    Agree n (foldMore more a) (foldMore more' a) fun _ => 0 :=
  .limited fun _ _ hk hj => agree_foldMoreUpTo h hk hj a

end

end Parser

end ObjLang
