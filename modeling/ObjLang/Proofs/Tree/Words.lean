import ObjLang.Proofs.Check.Level
import ObjLang.Proofs.Tree.Written

/-!
# ObjLang.Proofs.Tree.Words — names in source texts

A name in a source text consists of letters, digits and underscores; the names that the code
generator makes up contain `#`, and those that it puts together contain `$`.  The reader only copies
names from tokens, so the same holds of every name that a program gives to a variable, a function or
a class.
-/

namespace ObjLang

/-- A function definition whose names are words, at any depth. -/
structure FunDef.Words (d : FunDef) : Prop where
  parameters : ∀ q ∈ d.parameters, Word q.name.name
  definitions : ∀ q ∈ d.definitions, Word q.1.name.name
  names : ∀ x ∈ d.all.map (·.name.name), Word x

theorem FunDef.Written.words {d : FunDef} (h : d.Written) : d.Words := by
  induction h with
  | @intro d hname hparams _ _ hvars _ _ _ _ ih =>
    cases d with
    | mk name params ret decls vars nested body span id =>
      refine ⟨fun q hq => ?_, fun q hq => ?_, fun x hx => ?_⟩
      · simp only [FunDef.parameters, List.mem_append, FunDef.mem_parametersOf] at hq
        obtain hq | ⟨e, he, hq⟩ := hq
        · exact (hparams q hq).name.word
        · exact (ih e he).parameters q hq
      · simp only [FunDef.definitions, List.mem_append, FunDef.mem_definitionsOf, List.mem_map] at hq
        obtain ⟨v, hv, rfl⟩ | ⟨e, he, hq⟩ := hq
        · exact (hvars v hv).var.name.word
        · exact (ih e he).definitions q hq
      · simp only [FunDef.all, List.map_cons, List.mem_cons, List.mem_map, FunDef.mem_allOf] at hx
        obtain rfl | ⟨e', ⟨e, he, he'⟩, rfl⟩ := hx
        · exact hname.word
        · exact (ih e he).names _ (List.mem_map_of_mem he')

/-- A class definition whose name is a word, and those of its methods. -/
structure ClassDef.Words (k : ClassDef) : Prop where
  name : Word k.name.name
  methods : ∀ m ∈ k.methods, m.Words

/-- A program in which every name of a variable, a function or a class is a word. -/
structure Program.Words (p : Program) : Prop where
  vars : ∀ d ∈ p.vars, Word d.var.name.name
  functions : ∀ d ∈ p.functions, d.Words
  classes : ∀ k ∈ p.classes, k.Words

/-- The names in a source text are words. -/
theorem Program.parse_words {source : String} {p : Program} (h : Program.parse source = .ok p) :
    p.Words := by
  have hw := Program.parse_written h
  exact ⟨fun d hd => (hw.vars d hd).var.name.word, fun d hd => (hw.functions d hd).words,
    fun k hk => ⟨(hw.classes k hk).name.word, fun m hm => ((hw.classes k hk).methods m hm).words⟩⟩

end ObjLang
