import ScriptGraph.Graph.Render
import ScriptGraph.Proofs.Doubles
import ScriptGraph.Proofs.NodeData
import ScriptGraph.Proofs.Preorder

/-- Lists that are cut where a property first fails are equal part by part. -/
theorem List.append_inj_of_boundary {α : Type} (P : α → Prop) {as bs as' bs' : List α} (ha : ∀ a ∈ as, P a)
    (ha' : ∀ a ∈ as', P a) (hb : ∀ b ∈ bs.head?, ¬P b) (hb' : ∀ b ∈ bs'.head?, ¬P b) (h : as ++ bs = as' ++ bs') :
    as = as' ∧ bs = bs' := by
  induction as generalizing as' with
  | nil =>
    cases as' with
    | nil => exact ⟨rfl, h⟩
    | cons a as' =>
      obtain rfl : bs = a :: (as' ++ bs') := h
      exact absurd (ha' a List.mem_cons_self) (hb a rfl)
  | cons a as ih =>
    cases as' with
    | nil =>
      obtain rfl : a :: (as ++ bs) = bs' := h
      exact absurd (ha a List.mem_cons_self) (hb' a rfl)
    | cons a' as' =>
      obtain ⟨rfl, hrest⟩ := List.cons.inj h
      obtain ⟨rfl, rfl⟩ := ih (List.forall_mem_cons.mp ha).2 (List.forall_mem_cons.mp ha').2 hrest
      exact ⟨rfl, rfl⟩

namespace ScriptGraph

namespace Outline

/-- The nodes of an outline in order, the first reached by `handle`, each with the number of blocks around it. -/
def steps (depth : Nat) (handle : Option Handle) : List Outline → List (Step × Nat)
  | [] => []
  | .leaf kind data :: os => (⟨kind, data, handle⟩, depth) :: steps depth (some .flowOut) os
  | .block kind data body :: os =>
    (⟨kind, data, handle⟩, depth) :: (steps (depth + 1) (some .flowOut) body ++ steps depth handle os)
  | .branch kind data consequent alternate :: os =>
    (⟨kind, data, handle⟩, depth) :: (steps (depth + 1) (some .onTrue) consequent ++
      steps (depth + 1) (some .onFalse) alternate ++ steps depth handle os)

theorem handle_of_mem_plant (layout : Layout) (mark : String) (os : List Outline) : ∀ depth handle row,
    ∀ t ∈ plant layout mark depth handle row os, t.handle = handle := by
  induction os using listInduction with
  | nil => simp [plant]
  | leaf kind data os ih => simp [plant]
  | block kind data body os ihb iho =>
    intro depth handle row
    rw [plant]
    exact List.forall_mem_cons.mpr ⟨rfl, iho _ _ _⟩
  | branch kind data consequent alternate os ihc iha iho =>
    intro depth handle row
    rw [plant]
    exact List.forall_mem_cons.mpr ⟨rfl, iho _ _ _⟩

theorem stepsAll_plant (layout : Layout) (mark : String) (depth : Nat) (handle : Handle) (row : Nat)
    (os : List Outline) :
    Tree.stepsAll (plant layout mark depth handle row os) =
      (plant layout mark depth handle row os).flatMap (Tree.steps (some handle)) := by
  rw [Tree.stepsAll_eq]
  refine List.flatMap_congr fun t ht => ?_
  rw [handle_of_mem_plant layout mark os depth handle row t ht]

/-- A forest is gone through in the order of the outline. -/
theorem steps_plant (layout : Layout) (mark : String) (os : List Outline) : ∀ depth handle row via,
    (plant layout mark depth handle row os).flatMap (Tree.steps via) = (steps depth via os).map Prod.fst := by
  induction os using listInduction with
  | nil => simp [plant, steps]
  | leaf kind data os ih =>
    intro depth handle row via
    simp [plant, steps, Tree.steps, stepsAll_plant, ih, nodeAt]
  | block kind data body os ihb iho =>
    intro depth handle row via
    simp [plant, steps, Tree.steps, stepsAll_plant, ihb, iho, nodeAt]
  | branch kind data consequent alternate os ihc iha iho =>
    intro depth handle row via
    simp [plant, steps, Tree.steps, Tree.stepsAll_append, stepsAll_plant, ihc, iha, iho, nodeAt]

theorem le_depth_of_mem_steps (os : List Outline) : ∀ depth handle, ∀ x ∈ steps depth handle os, depth ≤ x.2 := by
  induction os using listInduction with
  | nil => simp [steps]
  | leaf kind data os ih =>
    intro depth handle x hx
    simp only [steps, List.mem_cons] at hx
    rcases hx with rfl | hx
    · exact Nat.le_refl _
    · exact ih _ _ x hx
  | block kind data body os ihb iho =>
    intro depth handle x hx
    simp only [steps, List.mem_cons, List.mem_append] at hx
    rcases hx with rfl | hx | hx
    · exact Nat.le_refl _
    · exact Nat.le_of_succ_le (ihb _ _ x hx)
    · exact iho _ _ x hx
  | branch kind data consequent alternate os ihc iha iho =>
    intro depth handle x hx
    simp only [steps, List.mem_cons, List.mem_append] at hx
    rcases hx with rfl | (hx | hx) | hx
    · exact Nat.le_refl _
    · exact Nat.le_of_succ_le (ihc _ _ x hx)
    · exact Nat.le_of_succ_le (iha _ _ x hx)
    · exact iho _ _ x hx

/-- The first node is reached by the handle that is given. -/
theorem head_steps {depth : Nat} {handle : Option Handle} {os : List Outline} {x : Step × Nat}
    (h : x ∈ (steps depth handle os).head?) : x.2 = depth ∧ x.1.handle = handle := by
  cases os with
  | nil => simp [steps] at h
  | cons o os =>
    cases o <;> (simp only [steps, List.head?_cons, Option.mem_some_iff] at h; subst h; exact ⟨rfl, rfl⟩)

/-- At its own depth, a list is left by its handle or follows a plain statement. -/
theorem handle_of_mem_steps (os : List Outline) : ∀ depth handle, ∀ x ∈ steps depth handle os, x.2 = depth →
    x.1.handle = handle ∨ x.1.handle = some .flowOut := by
  induction os using listInduction with
  | nil => simp [steps]
  | leaf kind data os ih =>
    intro depth handle x hx hd
    simp only [steps, List.mem_cons] at hx
    rcases hx with rfl | hx
    · exact .inl rfl
    · exact .inr ((ih _ _ x hx hd).elim id id)
  | block kind data body os ihb iho =>
    intro depth handle x hx hd
    simp only [steps, List.mem_cons, List.mem_append] at hx
    rcases hx with rfl | hx | hx
    · exact .inl rfl
    · have := le_depth_of_mem_steps _ _ _ x hx
      omega
    · exact iho _ _ x hx hd
  | branch kind data consequent alternate os ihc iha iho =>
    intro depth handle x hx hd
    simp only [steps, List.mem_cons, List.mem_append] at hx
    rcases hx with rfl | (hx | hx) | hx
    · exact .inl rfl
    · have := le_depth_of_mem_steps _ _ _ x hx
      omega
    · have := le_depth_of_mem_steps _ _ _ x hx
      omega
    · exact iho _ _ x hx hd

/-- What is deeper ends before the next node that is not. -/
theorem steps_below_inj {depth : Nat} {handle : Option Handle} {as bs : List (Step × Nat)} {os os' : List Outline}
    (ha : ∀ x ∈ as, depth + 1 ≤ x.2) (hb : ∀ x ∈ bs, depth + 1 ≤ x.2)
    (h : as ++ steps depth handle os = bs ++ steps depth handle os') :
    as = bs ∧ steps depth handle os = steps depth handle os' := by
  refine List.append_inj_of_boundary (fun x => depth + 1 ≤ x.2) ha hb ?_ ?_ h
  all_goals
    intro x hx
    have := (head_steps hx).1
    omega

/-- The first branch ends before the first node of the second one. -/
theorem steps_branches_inj {depth : Nat} {cs as cs' as' : List Outline}
    (h : steps depth (some .onTrue) cs ++ steps depth (some .onFalse) as =
      steps depth (some .onTrue) cs' ++ steps depth (some .onFalse) as') :
    steps depth (some .onTrue) cs = steps depth (some .onTrue) cs' ∧
      steps depth (some .onFalse) as = steps depth (some .onFalse) as' := by
  have hthen (os : List Outline) :
      ∀ x ∈ steps depth (some .onTrue) os, ¬(x.2 = depth ∧ x.1.handle = some .onFalse) := by
    rintro x hx ⟨hd, hh⟩
    rcases handle_of_mem_steps os _ _ x hx hd with he | he
    · exact absurd (hh.symm.trans he) (by decide)
    · exact absurd (hh.symm.trans he) (by decide)
  refine List.append_inj_of_boundary (fun x => ¬(x.2 = depth ∧ x.1.handle = some .onFalse)) (hthen cs) (hthen cs') ?_ ?_
    h
  all_goals
    intro x hx
    exact not_not_intro (head_steps hx)

theorem steps_ne_nil {depth : Nat} {handle : Option Handle} {o : Outline} {os : List Outline} :
    steps depth handle (o :: os) ≠ [] := by
  cases o <;> simp [steps]

/-- Two outlines with the same nodes at the same depths are equal. -/
theorem eq_of_steps_eq {os : List Outline} (h : EveryAll Apt os) : ∀ {os' depth handle}, EveryAll Apt os' →
    steps depth handle os = steps depth handle os' → os = os' := by
  induction os using listInduction with
  | nil =>
    intro os' depth handle _ he
    cases os' with
    | nil => rfl
    | cons o os' => exact absurd (he.symm.trans (by simp only [steps])) steps_ne_nil
  | leaf kind data os ih =>
    intro os' depth handle h' he
    cases os' with
    | nil => exact absurd (he.trans (by simp only [steps])) steps_ne_nil
    | cons o os' =>
      -- the first nodes agree, so their shapes do
      cases o <;> simp only [steps, List.cons.injEq, Prod.mk.injEq, Step.mk.injEq, and_true, EveryAll] at he h h' <;>
        obtain ⟨⟨rfl, rfl⟩, he⟩ := he
      · rw [ih h.2 h'.2 he]
      · cases h.1.shape_eq h'.1
      · cases h.1.shape_eq h'.1
  | block kind data body os ihb iho =>
    intro os' depth handle h' he
    cases os' with
    | nil => exact absurd (he.trans (by simp only [steps])) steps_ne_nil
    | cons o os' =>
      cases o <;> simp only [steps, List.cons.injEq, Prod.mk.injEq, Step.mk.injEq, and_true, EveryAll] at he h h' <;>
        obtain ⟨⟨rfl, rfl⟩, he⟩ := he
      · cases h.1.shape_eq h'.1
      · obtain ⟨hbody, hrest⟩ := steps_below_inj (le_depth_of_mem_steps _ _ _) (le_depth_of_mem_steps _ _ _) he
        rw [ihb h.2.1 h'.2.1 hbody, iho h.2.2 h'.2.2 hrest]
      · cases h.1.shape_eq h'.1
  | branch kind data consequent alternate os ihc iha iho =>
    intro os' depth handle h' he
    cases os' with
    | nil => exact absurd (he.trans (by simp only [steps])) steps_ne_nil
    | cons o os' =>
      cases o <;> simp only [steps, List.cons.injEq, Prod.mk.injEq, Step.mk.injEq, and_true, EveryAll] at he h h' <;>
        obtain ⟨⟨rfl, rfl⟩, he⟩ := he
      · cases h.1.shape_eq h'.1
      · cases h.1.shape_eq h'.1
      · have hdeep (cs as : List Outline) : ∀ x ∈ steps (depth + 1) (some .onTrue) cs ++
            steps (depth + 1) (some .onFalse) as, depth + 1 ≤ x.2 :=
          List.forall_mem_append.mpr ⟨le_depth_of_mem_steps _ _ _, le_depth_of_mem_steps _ _ _⟩
        obtain ⟨hbranches, hrest⟩ := steps_below_inj (hdeep _ _) (hdeep _ _) he
        obtain ⟨hthen, helse⟩ := steps_branches_inj hbranches
        rw [ihc h.2.1 h'.2.1 hthen, iha h.2.2.1 h'.2.2.1 helse, iho h.2.2.2 h'.2.2.2 hrest]

theorem apt_of_mem_steps {os : List Outline} (h : EveryAll Apt os) : ∀ depth handle, ∀ x ∈ steps depth handle os,
    ∃ shape, Apt shape x.1.kind x.1.data := by
  induction os using listInduction with
  | nil => simp [steps]
  | leaf kind data os ih =>
    intro depth handle x hx
    simp only [EveryAll, steps, List.mem_cons] at h hx
    rcases hx with rfl | hx
    · exact ⟨_, h.1⟩
    · exact ih h.2 _ _ x hx
  | block kind data body os ihb iho =>
    intro depth handle x hx
    simp only [EveryAll, steps, List.mem_cons, List.mem_append] at h hx
    rcases hx with rfl | hx | hx
    · exact ⟨_, h.1⟩
    · exact ihb h.2.1 _ _ x hx
    · exact iho h.2.2 _ _ x hx
  | branch kind data consequent alternate os ihc iha iho =>
    intro depth handle x hx
    simp only [EveryAll, steps, List.mem_cons, List.mem_append] at h hx
    rcases hx with rfl | (hx | hx) | hx
    · exact ⟨_, h.1⟩
    · exact ihc h.2.1 _ _ x hx
    · exact iha h.2.2.1 _ _ x hx
    · exact iho h.2.2.2 _ _ x hx

/-- The depth of each node: how many blocks are around it. -/
def depths (depth : Nat) : List Outline → List Nat
  | [] => []
  | .leaf _ _ :: os => depth :: depths depth os
  | .block _ _ body :: os => depth :: (depths (depth + 1) body ++ depths depth os)
  | .branch _ _ consequent alternate :: os =>
    depth :: (depths (depth + 1) consequent ++ depths (depth + 1) alternate ++ depths depth os)

theorem map_snd_steps (os : List Outline) : ∀ depth handle, (steps depth handle os).map Prod.snd = depths depth os := by
  induction os using listInduction with
  | nil => simp [steps, depths]
  | leaf kind data os ih => simp [steps, depths, ih]
  | block kind data body os ihb iho => simp [steps, depths, ihb, iho]
  | branch kind data consequent alternate os ihc iha iho => simp [steps, depths, ihc, iha, iho]

/-- Steps that are the same and have the data of their kinds are equal. -/
theorem eq_of_sameAll {as bs : List Step} (ha : ∀ a ∈ as, ∃ shape, Apt shape a.kind a.data)
    (hb : ∀ b ∈ bs, ∃ shape, Apt shape b.kind b.data) (h : Step.sameAll as bs = true) : as = bs := by
  induction as generalizing bs with
  | nil =>
    cases bs with
    | nil => rfl
    | cons b bs => simp [Step.sameAll] at h
  | cons a as ih =>
    cases bs with
    | nil => simp [Step.sameAll] at h
    | cons b bs =>
      obtain ⟨⟨_, hapt⟩, has⟩ := List.forall_mem_cons.mp ha
      obtain ⟨⟨_, hapt'⟩, hbs⟩ := List.forall_mem_cons.mp hb
      simp only [Step.sameAll, Step.same, Bool.and_eq_true, beq_iff_eq] at h
      obtain ⟨⟨⟨hkind, hdata⟩, hhandle⟩, h⟩ := h
      obtain ⟨kind, data, handle⟩ := a
      obtain ⟨kind', data', handle'⟩ := b
      obtain rfl : kind = kind' := hkind
      obtain rfl : handle = handle' := hhandle
      obtain rfl : data = data' := hapt.data_eq hapt' hdata
      rw [ih has hbs h]

end Outline

/-- How many blocks are around each node of a program, in the order of the nodes. -/
def Program.blockDepths (p : Program) : List Nat := Outline.depths 0 (Stmt.outlines p)

/-- The sequence of a graph goes through the outline of its program. -/
theorem Graph.sequence_ofProgram {layout : Layout} (h : layout.Descends) (p : Program) (mark : String) :
    (Graph.ofProgram layout p mark).sequence = (Outline.steps 0 none (Stmt.outlines p)).map Prod.fst := by
  rw [(hosts_ofProgram h p mark).sequence_eq, Outline.steps_plant]

/-- Programs whose graphs have the same structure and the same nesting have one outline. -/
theorem Stmt.outlines_eq_of_sameStructure {layout : Layout} (hl : layout.Descends) {p q : Program}
    {mark mark' : String}
    (h : (Graph.ofProgram layout p mark).sameStructure (Graph.ofProgram layout q mark') = true)
    (hd : Program.blockDepths p = Program.blockDepths q) : Stmt.outlines p = Stmt.outlines q := by
  have hp := Outline.apt_outlines p
  have hq := Outline.apt_outlines q
  simp only [Graph.sameStructure, Graph.sequence_ofProgram hl, Bool.and_eq_true] at h
  have hfst := Outline.eq_of_sameAll (List.forall_mem_map.mpr (Outline.apt_of_mem_steps hp 0 none))
    (List.forall_mem_map.mpr (Outline.apt_of_mem_steps hq 0 none)) h.2
  have hsnd : (Outline.steps 0 none (Stmt.outlines p)).map Prod.snd =
      (Outline.steps 0 none (Stmt.outlines q)).map Prod.snd := by
    rw [Outline.map_snd_steps, Outline.map_snd_steps]
    exact hd
  have hsteps : Outline.steps 0 none (Stmt.outlines p) = Outline.steps 0 none (Stmt.outlines q) :=
    (List.zip_of_prod hfst hsnd).trans (List.zip_of_prod rfl rfl).symm
  exact Outline.eq_of_steps_eq hp hq hsteps

end ScriptGraph
