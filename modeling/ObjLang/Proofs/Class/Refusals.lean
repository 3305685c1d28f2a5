import ObjLang.Proofs.Class.Walk

/-!
# ObjLang.Proofs.Class.Refusals — why layouts are refused

Until all layouts are there, classes are refused only for the names and types that are written in
them, and at their places.  Whether one is left out, because the way up from it runs in a circle, is
seen at the end.
-/

namespace ObjLang

/-! ### The cause of a refusal -/

section

variable {α β : Type} {P : CheckError → Prop}

/-- If there is no result, then for a fault of a certain kind. -/
def Blames (P : CheckError → Prop) (r : Except CheckError α) : Prop :=
  ∀ e, r = .error e → P e

theorem Blames.ok (a : α) : Blames P (.ok a) := by
  rintro _ ⟨⟩

theorem blames_error {e : CheckError} (h : P e) :
    Blames P (.error e : Except CheckError α) := by
  rintro _ ⟨⟩
  exact h

theorem Blames.mono {Q : CheckError → Prop} {r : Except CheckError α} (h : Blames P r)
    (hPQ : ∀ e, P e → Q e) : Blames Q r :=
  fun e he => hPQ _ (h e he)

theorem Blames.bind {r : Except CheckError α} {f : α → Except CheckError β} (hr : Blames P r)
    (hf : ∀ a, r = .ok a → Blames P (f a)) : Blames P (r >>= f) := by
  cases r with
  | error e => exact fun _ h => hr _ (by cases h; rfl)
  | ok a => exact hf a rfl

theorem Blames.map {r : Except CheckError α} (hr : Blames P r) (f : α → β) :
    Blames P (r.map f) := by
  cases r with
  | error e => exact fun _ h => hr _ (by cases h; rfl)
  | ok a => exact .ok _

end

/-- The places of the name and of the type in a variable definition. -/
def VarDef.headPlaces (d : VarDef) : List Span := [d.var.name.span, d.var.type.span]

/-- The places of the names and types that a class definition declares. -/
def ClassDef.headPlaces (d : ClassDef) : List Span :=
  d.name.span :: d.superclass.span ::
    (d.fields.flatMap VarDef.headPlaces ++ d.methods.map (·.name.span))

namespace ClassTable

/-- A complaint of a name or of a type that is written in a class. -/
def OfWritten : CheckError.Cause → Prop
  | .undefinedType _ | .duplicateIdentifier _ | .duplicateField _ _ | .unknownSuperclass _ _ => True
  | _ => False

/-- A complaint of a name or of a type that is written at one of some places. -/
structure AtWritten (places : List Span) (e : CheckError) : Prop where
  cause : OfWritten e.cause
  place : e.span ∈ places

variable {isClass : String → Bool} {classes : List ClassDef}

theorem AtWritten.mono {places places' : List Span} {e : CheckError} (h : AtWritten places e)
    (hsub : places ⊆ places') : AtWritten places' e :=
  ⟨h.cause, hsub h.place⟩

theorem blames_annotated (written : Ident) :
    Blames (AtWritten [written.span]) (ClassLayout.annotated isClass written) := by
  unfold ClassLayout.annotated
  split
  · exact .ok _
  · exact blames_error ⟨trivial, List.mem_singleton_self _⟩

theorem blames_addFields {owner : String} {methods : Rows MethodEntry} {fields : Rows FieldLayout}
    (ds : List VarDef) : Blames (AtWritten (ds.flatMap VarDef.headPlaces))
      (ClassLayout.addFields isClass owner methods fields ds) := by
  induction ds generalizing fields with
  | nil => exact .ok _
  | cons d ds ih =>
    unfold ClassLayout.addFields
    dsimp only
    rw [List.flatMap_cons]
    split
    · exact blames_error ⟨trivial, List.mem_append_left _ List.mem_cons_self⟩
    · refine ((blames_annotated _).mono fun e he => he.mono ?_).bind fun _ _ =>
        ih.mono fun e he => he.mono (List.subset_append_right _ _)
      exact List.cons_subset.2
        ⟨List.mem_append_left _ (List.mem_cons_of_mem _ List.mem_cons_self), List.nil_subset _⟩

theorem blames_addMethods {owner : String} {fields : Rows FieldLayout} {own : List String}
    {methods : Rows MethodEntry} (ds : List FunDef) : Blames (AtWritten (ds.map (·.name.span)))
      (ClassLayout.addMethods owner fields own methods ds) := by
  induction ds generalizing own methods with
  | nil => exact .ok _
  | cons d ds ih =>
    unfold ClassLayout.addMethods
    dsimp only
    rw [List.map_cons]
    split
    · exact blames_error ⟨trivial, List.mem_cons_self⟩
    · split
      · exact blames_error ⟨trivial, List.mem_cons_self⟩
      · exact ih.mono fun e he => he.mono (List.subset_cons_self _ _)

theorem blames_extend {parent : ClassLayout} {base : Nat} (d : ClassDef) :
    Blames (AtWritten d.headPlaces) (ClassLayout.extend isClass parent base d) := by
  have hfields : d.fields.flatMap VarDef.headPlaces ⊆ d.headPlaces := fun s hs =>
    List.mem_cons_of_mem _ (List.mem_cons_of_mem _ (List.mem_append_left _ hs))
  have hmethods : d.methods.map (·.name.span) ⊆ d.headPlaces := fun s hs =>
    List.mem_cons_of_mem _ (List.mem_cons_of_mem _ (List.mem_append_right _ hs))
  exact ((blames_addFields _).mono fun e he => he.mono hfields).bind fun _ _ =>
    ((blames_addMethods _).mono fun e he => he.mono hmethods).bind fun _ _ => .ok _

theorem blames_layKids {parent : ClassLayout} {base : Nat} (ds : List ClassDef) :
    Blames (AtWritten (ds.flatMap ClassDef.headPlaces)) (layKids isClass parent base ds) := by
  induction ds generalizing base with
  | nil => exact .ok _
  | cons d ds ih =>
    rw [List.flatMap_cons]
    exact ((blames_extend d).mono fun e he => he.mono (List.subset_append_left _ _)).bind
      fun _ _ => (ih.mono fun e he => he.mono (List.subset_append_right _ _)).bind fun _ _ => .ok _

theorem blames_grow (n : Nat) {done queue : List ClassLayout} :
    Blames (AtWritten (classes.flatMap ClassDef.headPlaces))
      (grow classes isClass n done queue) := by
  induction n generalizing done queue with
  | zero => exact .ok _
  | succ n ih =>
    cases queue with
    | nil => exact .ok _
    | cons parent queue =>
      refine ((blames_layKids _).mono fun e he => he.mono fun s hs => ?_).bind fun _ _ => ih
      obtain ⟨d, hd, hs⟩ := List.mem_flatMap.1 hs
      exact List.mem_flatMap.2 ⟨d, List.mem_of_mem_filter hd, hs⟩

theorem blames_checkNames {seen : List String} (ds : List ClassDef) :
    Blames (AtWritten (ds.flatMap ClassDef.headPlaces)) (checkNames seen ds) := by
  induction ds generalizing seen with
  | nil => exact .ok _
  | cons d ds ih =>
    unfold checkNames
    dsimp only
    rw [List.flatMap_cons]
    split
    · exact blames_error ⟨trivial, List.mem_append_left _ List.mem_cons_self⟩
    · exact ih.mono fun e he => he.mono (List.subset_append_right _ _)

theorem blames_checkSuperclasses {names : List String} (ds : List ClassDef) :
    Blames (AtWritten (ds.flatMap ClassDef.headPlaces)) (checkSuperclasses names ds) := by
  induction ds with
  | nil => exact .ok _
  | cons d ds ih =>
    unfold checkSuperclasses
    dsimp only
    rw [List.flatMap_cons]
    split
    · exact ih.mono fun e he => he.mono (List.subset_append_right _ _)
    · exact blames_error
        ⟨trivial, List.mem_append_left _ (List.mem_cons_of_mem _ List.mem_cons_self)⟩

/-- The walk finds the superclass of each class laid out. -/
theorem blames_run (hnames : checkNames [] classes = .ok ()) (n : Nat) :
    Blames (AtWritten (classes.flatMap ClassDef.headPlaces))
      (Walk.run classes isClass n .start) := by
  rw [Walk.run_start hnames]
  exact (blames_grow n).map _

/-- Classes are refused for what is written in them, or for a circle, at the place of a name or of a
type. -/
theorem blames_resolve (classes : List ClassDef) :
    Blames (fun e => (OfWritten e.cause ∨ ∃ x, e.cause = .inheritanceCycle x) ∧
      e.span ∈ classes.flatMap ClassDef.headPlaces) (resolve classes) := by
  have hwritten : ∀ e, AtWritten (classes.flatMap ClassDef.headPlaces) e →
      (OfWritten e.cause ∨ ∃ x, e.cause = .inheritanceCycle x) ∧
        e.span ∈ classes.flatMap ClassDef.headPlaces :=
    fun e he => ⟨.inl he.cause, he.place⟩
  refine ((blames_checkNames _).mono hwritten).bind fun _ hnames => ?_
  refine ((blames_checkSuperclasses _).mono hwritten).bind fun _ _ => ?_
  refine ((blames_run hnames _).mono hwritten).bind fun _ _ => ?_
  split
  · next d hfind =>
    exact blames_error ⟨.inr ⟨_, rfl⟩,
      List.mem_flatMap.2 ⟨d, List.mem_of_find?_eq_some hfind, List.mem_cons_self⟩⟩
  · exact .ok _

end ClassTable

end ObjLang
