import ObjLang.Check
import ObjLang.Proofs.Runs

/-!
# ObjLang.Proofs.Check.Records — what later states of a check know of earlier ones

Records are only added; of the record of a variable nothing changes but the note that it is
captured.  The origin of an alias has a smaller number than the alias, so the way from an alias to
the variable that it stands for ends; `home` is the end of that way.
-/

namespace ObjLang

theorem Variable.captured_eq (r : Variable) :
    ∃ b, r.captured = { r with refed := b } ∧ (r.refed = true → b = true) := by
  unfold Variable.captured
  split
  · exact ⟨true, rfl, fun _ => rfl⟩
  · exact ⟨true, rfl, fun _ => rfl⟩
  · exact ⟨r.refed, rfl, id⟩

/-- Whether a variable is captured or not, nothing but its place may change. -/
theorem Variable.marked_eq (r : Variable) (c : Prop) [Decidable c] :
    ∃ b, (if c then r.captured else r) = { r with refed := b } ∧ (r.refed = true → b = true) := by
  split
  · exact r.captured_eq
  · exact ⟨r.refed, rfl, id⟩

/-- Only parameters and variables of functions get into a cell. -/
theorem Variable.captured_refed {r : Variable} (h : r.captured.refed = true)
    (hr : r.refed = true → r.isGlobal = false ∧ r.isCapture = false) :
    r.isGlobal = false ∧ r.isCapture = false := by
  unfold Variable.captured at h
  cases hk : r.kind with
  | param | «local» => simp [Variable.isGlobal, Variable.isCapture, hk]
  | global | capture o =>
    simp only [hk] at h
    exact hr h

/-- A captured parameter or variable lives in a cell. -/
theorem Variable.refed_captured {r : Variable} (hg : r.isGlobal = false)
    (hc : r.isCapture = false) : r.captured.refed = true := by
  unfold Variable.captured
  cases hk : r.kind <;> simp_all [Variable.isGlobal, Variable.isCapture]

namespace Captures

theorem mem_add_of_mem {cs : Captures} {k : Capture} (h : k ∈ cs) (c : Capture) :
    k ∈ cs.add c := by
  unfold add
  split
  · exact h
  · exact List.mem_append_left _ h

theorem mem_add_self {cs : Captures} {c : Capture} (h : cs.has c.name = false) :
    c ∈ cs.add c := by
  simp [add, h]

theorem mem_add {cs : Captures} {k c : Capture} (h : k ∈ cs.add c) : k ∈ cs ∨ k = c := by
  unfold add at h
  split at h
  · exact .inl h
  · simpa using h

theorem has_eq_true {cs : Captures} {x : String} :
    cs.has x = true ↔ ∃ k ∈ cs, k.name = x := by
  simp [has]

theorem has_add_of_has {cs : Captures} {x : String} (h : cs.has x = true) (c : Capture) :
    (cs.add c).has x = true := by
  obtain ⟨k, hk, hx⟩ := has_eq_true.1 h
  exact has_eq_true.2 ⟨k, mem_add_of_mem hk c, hx⟩

end Captures

/-- A function comes after the one that it is nested in. -/
def Functions.Ordered (fs : Functions) : Prop :=
  ∀ (id : FunId) f p, fs[id.index]? = some f → f.parent = some p → p.index < id.index

namespace Variables

theorem get?_eq_some_lt {vs : Variables} {v : VarId} {r : Variable} (h : vs.get? v = some r) :
    v.index < vs.size := by
  obtain ⟨hlt, -⟩ := Array.getElem?_eq_some_iff.1 h
  exact hlt

theorem get?_isSome_of_lt {vs : Variables} {v : VarId} (h : v.index < vs.size) :
    ∃ r, vs.get? v = some r :=
  ⟨vs.items[v.index], Array.getElem?_eq_getElem h⟩

theorem get_eq_of_get? {vs : Variables} {v : VarId} {r : Variable} (h : vs.get? v = some r) :
    vs.get v = r := by
  simp [get, h]

theorem get?_nextId (vs : Variables) : vs.get? vs.nextId = none := by
  simp [get?, nextId]

theorem ne_nextId {vs : Variables} {v : VarId} {r : Variable} (h : vs.get? v = some r) :
    v ≠ vs.nextId := by
  rintro rfl
  simp [get?_nextId] at h

theorem get?_push_self (vs : Variables) (r : Variable) :
    (vs.push r).get? vs.nextId = some r := by
  simp [get?_push]

theorem get?_push_of_some {vs : Variables} {v : VarId} {q : Variable} (r : Variable)
    (h : vs.get? v = some q) : (vs.push r).get? v = some q := by
  rw [get?_push, if_neg (ne_nextId h), h]

/-! ### Growing records -/

/-- Every record of `vs` is in `vs'` too, at most with a note that it is captured. -/
def Extends (vs vs' : Variables) : Prop :=
  ∀ v r, vs.get? v = some r →
    ∃ b, vs'.get? v = some { r with refed := b } ∧ (r.refed = true → b = true)

theorem Extends.refl (vs : Variables) : vs.Extends vs := fun _ r h => ⟨r.refed, h, id⟩

theorem Extends.trans {a b c : Variables} (hab : a.Extends b) (hbc : b.Extends c) :
    a.Extends c := by
  intro v r h
  obtain ⟨x, hx, hrx⟩ := hab v r h
  obtain ⟨y, hy, hry⟩ := hbc v _ hx
  exact ⟨y, hy, fun hr => hry (hrx hr)⟩

theorem Extends.push (vs : Variables) (q : Variable) : vs.Extends (vs.push q) :=
  fun _ r h => ⟨r.refed, get?_push_of_some q h, id⟩

theorem Extends.markCaptured (vs : Variables) (o : VarId) : vs.Extends (vs.markCaptured o) := by
  intro v r h
  rw [get?_markCaptured, h]
  split
  · obtain ⟨b, hb, hr⟩ := r.captured_eq
    exact ⟨b, by rw [Option.map_some, hb], hr⟩
  · exact ⟨r.refed, rfl, id⟩

theorem Extends.isSome {vs vs' : Variables} (h : vs.Extends vs') {v : VarId} {r : Variable}
    (hv : vs.get? v = some r) : ∃ r', vs'.get? v = some r' ∧ r'.name = r.name ∧ r'.ty = r.ty ∧
      r'.kind = r.kind ∧ r'.owner = r.owner ∧ (r.refed = true → r'.refed = true) := by
  obtain ⟨b, hb, hr⟩ := h v r hv
  exact ⟨_, hb, rfl, rfl, rfl, rfl, hr⟩

/-! ### The variable behind an alias -/

/-- The variable that is reached from `v` by going to the origin of an alias at most `n` times. -/
def homeUpTo (vs : Variables) : Nat → VarId → VarId
  | 0, v => v
  | n + 1, v =>
    match (vs.get v).kind with
    | .capture origin => homeUpTo vs n origin
    | _ => v

/-- The variable that `v` stands for: `v` itself unless it is an alias, and then what its origin
stands for.  Numbers get smaller on the way, which bounds its length. -/
def home (vs : Variables) (v : VarId) : VarId := vs.homeUpTo v.index v

/-- Aliases come after their origins. -/
def Descending (vs : Variables) : Prop :=
  ∀ v r o, vs.get? v = some r → r.kind = .capture o → o.index < v.index

theorem homeUpTo_of_not_capture {vs : Variables} {v : VarId} (h : (vs.get v).isCapture = false)
    (n : Nat) : vs.homeUpTo n v = v := by
  cases n with
  | zero => rfl
  | succ n =>
    unfold homeUpTo
    unfold Variable.isCapture at h
    split at h <;> simp_all

theorem home_of_not_capture {vs : Variables} {v : VarId} (h : (vs.get v).isCapture = false) :
    vs.home v = v :=
  homeUpTo_of_not_capture h _

theorem home_of_global {vs : Variables} {v : VarId} {r : Variable} (hr : vs.get? v = some r)
    (hg : r.isGlobal = true) : vs.home v = v := by
  refine home_of_not_capture ?_
  rw [get_eq_of_get? hr]
  cases hk : r.kind <;> simp_all [Variable.isGlobal, Variable.isCapture]

theorem Descending.not_capture {vs : Variables} (hd : vs.Descending) {v : VarId}
    (h : v.index = 0) : (vs.get v).isCapture = false := by
  cases hr : vs.get? v with
  | none => simp [get, hr, Variable.isCapture, default, instInhabitedVariable.default,
      instInhabitedVarKind.default]
  | some r =>
    rw [get_eq_of_get? hr]
    unfold Variable.isCapture
    split
    · next o ho => exact absurd (hd v r o hr ho) (by omega)
    · rfl

theorem homeUpTo_eq {vs : Variables} (hd : vs.Descending) :
    ∀ (n m : Nat) (v : VarId), v.index < vs.size → v.index ≤ n → v.index ≤ m →
      vs.homeUpTo n v = vs.homeUpTo m v := by
  intro n
  induction n with
  | zero =>
    intro m v _ hn _
    have hc := hd.not_capture (v := v) (by omega)
    exact (homeUpTo_of_not_capture hc m).symm
  | succ n ih =>
    intro m v hv hn hm
    obtain ⟨r, hr⟩ := get?_isSome_of_lt hv
    cases hk : r.kind with
    | capture o =>
      have ho : o.index < v.index := hd v r o hr hk
      obtain ⟨k, rfl⟩ : ∃ k, m = k + 1 := ⟨m - 1, by omega⟩
      simp only [homeUpTo, get_eq_of_get? hr, hk]
      exact ih k o (by omega) (by omega) (by omega)
    | _ =>
      have hc : (vs.get v).isCapture = false := by
        simp [get_eq_of_get? hr, Variable.isCapture, hk]
      rw [homeUpTo_of_not_capture hc, homeUpTo_of_not_capture hc]

theorem home_of_capture {vs : Variables} (hd : vs.Descending) {v o : VarId} {r : Variable}
    (hr : vs.get? v = some r) (hk : r.kind = .capture o) : vs.home v = vs.home o := by
  have ho : o.index < v.index := hd v r o hr hk
  have hv := get?_eq_some_lt hr
  obtain ⟨k, hkv⟩ : ∃ k, v.index = k + 1 := ⟨v.index - 1, by omega⟩
  unfold home
  rw [hkv]
  simp only [homeUpTo, get_eq_of_get? hr, hk]
  exact homeUpTo_eq hd _ _ _ (by omega) (by omega) (by omega)

/-- The way of aliases, from `v` to what it stands for, as an induction. -/
theorem home_induction {vs : Variables} (hd : vs.Descending) {P : VarId → Prop}
    (base : ∀ v r, vs.get? v = some r → r.isCapture = false → P v)
    (step : ∀ v r o, vs.get? v = some r → r.kind = .capture o → o.index < v.index → P o → P v) :
    ∀ v, v.index < vs.size → P v := by
  have key : ∀ (n : Nat) (v : VarId), v.index ≤ n → v.index < vs.size → P v := by
    intro n
    induction n with
    | zero =>
      intro v hn hv
      obtain ⟨r, hr⟩ := get?_isSome_of_lt hv
      exact base v r hr (get_eq_of_get? hr ▸ hd.not_capture (by omega))
    | succ n ih =>
      intro v hn hv
      obtain ⟨r, hr⟩ := get?_isSome_of_lt hv
      cases hk : r.kind with
      | capture o =>
        have ho : o.index < v.index := hd v r o hr hk
        exact step v r o hr hk ho (ih o (by omega) (by omega))
      | _ => exact base v r hr (by simp [Variable.isCapture, hk])
  exact fun v hv => key v.index v (Nat.le_refl _) hv

/-- What a variable stands for is a record, and no alias. -/
theorem get?_home {vs : Variables} (hd : vs.Descending) {v : VarId} (hv : v.index < vs.size) :
    ∃ r, vs.get? (vs.home v) = some r ∧ r.isCapture = false := by
  refine home_induction hd (P := fun v => ∃ r, vs.get? (vs.home v) = some r ∧ r.isCapture = false)
    ?_ ?_ v hv
  · intro v r hr hc
    rw [home_of_not_capture (get_eq_of_get? hr ▸ hc)]
    exact ⟨r, hr, hc⟩
  · intro v r o hr hk _ ih
    rwa [home_of_capture hd hr hk]

theorem Extends.home_eq {vs vs' : Variables} (hd : vs.Descending) (hd' : vs'.Descending)
    (he : vs.Extends vs') {v : VarId} (hv : v.index < vs.size) : vs'.home v = vs.home v := by
  refine home_induction hd (P := fun v => vs'.home v = vs.home v) ?_ ?_ v hv
  · intro v r hr hc
    obtain ⟨r', hr', -, -, hkind, -, -⟩ := he.isSome hr
    have hc' : r'.isCapture = false := by simpa [Variable.isCapture, hkind] using hc
    have h₁ : vs.home v = v := home_of_not_capture (get_eq_of_get? hr ▸ hc)
    have h₂ : vs'.home v = v := home_of_not_capture (get_eq_of_get? hr' ▸ hc')
    rw [h₁, h₂]
  · intro v r o hr hk _ ih
    obtain ⟨r', hr', -, -, hkind, -, -⟩ := he.isSome hr
    rw [home_of_capture hd hr hk, home_of_capture hd' hr' (hkind.trans hk), ih]

end Variables

end ObjLang
