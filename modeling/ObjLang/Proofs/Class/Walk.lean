import ObjLang.Proofs.Class.Rounds

/-!
# ObjLang.Proofs.Class.Walk — the walk through the classes of a program

The walk keeps a queue of names and looks up the layout of each when its turn comes.  The names in
the queue are always those of the last layouts, so the walk goes in rounds, and no superclass is
looked up in vain.
-/

namespace ObjLang.ClassTable

variable {classes : List ClassDef} {isClass : String → Bool}

namespace Walk

/-- The walk with the layouts `done` finished and those of `queue` waiting. -/
def between (done queue : List ClassLayout) : Walk :=
  ⟨⟨done ++ queue⟩, slotCount (done ++ queue), queue.map ClassLayout.name⟩

/-- The walk with layouts put behind the others. -/
def add (w : Walk) (kids : List ClassLayout) : Walk :=
  ⟨⟨w.table.layouts ++ kids⟩, w.nextBase + slotCount kids, w.queue ++ kids.map ClassLayout.name⟩

theorem add_nil (w : Walk) : w.add [] = w := by
  simp [add, slotCount]

theorem add_add (w : Walk) (as bs : List ClassLayout) : (w.add as).add bs = w.add (as ++ bs) := by
  simp [add, slotCount_append, Nat.add_assoc]

theorem get?_add {w : Walk} {x : String} {p : ClassLayout} (h : w.table.get? x = some p)
    (kids : List ClassLayout) : (w.add kids).table.get? x = some p := by
  rw [get?] at h ⊢
  rw [add, List.find?_append, h, Option.some_or]

/-- A class is laid out from the layout that its superclass has. -/
theorem lay_eq {w : Walk} {p : ClassLayout} (hp : w.table.get? p.name = some p) (d : ClassDef) :
    w.lay isClass p.name d
      = (ClassLayout.extend isClass p w.nextBase d).map fun c => w.add [c] := by
  rw [lay, layoutOf, hp]
  cases hc : ClassLayout.extend isClass p w.nextBase d with
  | error e => simp [hc, bind, Except.bind, Except.map]
  | ok c =>
    obtain ⟨hname, -, -⟩ := extend_head hc
    simp [hc, bind, Except.bind, Except.map, pure, Except.pure, add, slotCount, hname]

theorem foldlM_lay {p : ClassLayout} {w : Walk} (hp : w.table.get? p.name = some p)
    (ds : List ClassDef) :
    ds.foldlM (lay isClass p.name) w = (layKids isClass p w.nextBase ds).map w.add := by
  induction ds generalizing w with
  | nil =>
    rw [List.foldlM_nil, layKids, Except.map, add_nil]
    rfl
  | cons d ds ih =>
    rw [List.foldlM_cons, lay_eq hp, layKids]
    cases hc : ClassLayout.extend isClass p w.nextBase d with
    | error e => rfl
    | ok c =>
      have hbase : (w.add [c]).nextBase = c.vtableEnd := by
        obtain ⟨-, -, hbase⟩ := extend_head hc
        simp [add, slotCount, ClassLayout.vtableEnd, hbase]
      have hrest := ih (get?_add hp [c])
      rw [hbase] at hrest
      refine hrest.trans ?_
      cases hcs : layKids isClass p c.vtableEnd ds with
      | error e => simp [hcs, bind, Except.bind, Except.map]
      | ok cs => simp [hcs, bind, Except.bind, Except.map, pure, Except.pure, add_add]

/-- The walk looks up a superclass only behind its layout, so it goes through the rounds. -/
theorem run_between (hnd : (classes.map (·.name.name)).Nodup)
    (hres : ∀ d ∈ classes, reservedNames.contains d.name.name = false) (n : Nat)
    {done queue : List ClassLayout} (h : GrowOk classes isClass done queue) :
    run classes isClass n (between done queue)
      = (grow classes isClass n done queue).map ClassTable.mk := by
  induction n generalizing done queue with
  | zero => rfl
  | succ n ih =>
    cases queue with
    | nil => simp [run, between, grow, Except.map]
    | cons parent queue =>
      have hget : (ClassTable.mk (done ++ parent :: queue)).get? parent.name = some parent := by
        have hnot : ∀ c ∈ done, ¬ c.name == parent.name := by
          intro c hc heq
          have hnames := h.names
          rw [List.map_append, List.nodup_append] at hnames
          exact hnames.2.2 _ (List.mem_map_of_mem hc) parent.name (by simp) (eq_of_beq heq)
        rw [get?, List.find?_append, List.find?_eq_none.2 hnot]
        simp
      rw [run, grow]
      simp only [between, List.map_cons]
      rw [foldlM_lay hget]
      cases hk : layKids isClass parent (slotCount (done ++ parent :: queue))
          (classes.filter (·.superclass.name == parent.name)) with
      | error e => rfl
      | ok kids =>
        have hadd : add ⟨⟨done ++ parent :: queue⟩, slotCount (done ++ parent :: queue),
            queue.map ClassLayout.name⟩ kids = between (done ++ [parent]) (queue ++ kids) := by
          have hlist : done ++ [parent] ++ (queue ++ kids) = (done ++ parent :: queue) ++ kids := by
            simp
          rw [add, between, hlist, slotCount_append (done ++ parent :: queue), List.map_append]
        exact (congrArg (run classes isClass n) hadd).trans (ih (h.step hnd hres hk))

theorem run_start (hnames : checkNames [] classes = .ok ()) (n : Nat) :
    run classes isClass n .start
      = (grow classes isClass n [] [ClassLayout.root]).map ClassTable.mk := by
  obtain ⟨hnd, hres⟩ := checkNames_eq_ok.1 hnames
  exact run_between hnd (fun d hd => (hres d hd).1) n (growOk_start classes isClass)

theorem run_eq_ok (hnames : checkNames [] classes = .ok ()) {n : Nat} {t : ClassTable} :
    run classes isClass n .start = .ok t ↔
      grow classes isClass n [] [ClassLayout.root] = .ok t.layouts := by
  rw [run_start hnames]
  cases grow classes isClass n [] [ClassLayout.root] with
  | error e => simp [Except.map]
  | ok layouts =>
    simp only [Except.map, Except.ok.injEq]
    exact ⟨fun h => h ▸ rfl, fun h => h ▸ rfl⟩

end Walk

end ObjLang.ClassTable
