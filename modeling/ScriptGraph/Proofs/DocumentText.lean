import ScriptGraph.Command.Run
import ScriptGraph.Proofs.Marks
import ScriptGraph.Proofs.NodeData
import ScriptGraph.Proofs.Warnings
import ScriptGraph.Proofs.WholeNumerals

namespace ScriptGraph

theorem Json.mergedEntries_of_isPlain {entries : Fields} (h : ∀ e ∈ entries, e.2.IsPlain) :
    Json.mergedEntries entries = entries := by
  induction entries with
  | nil => rfl
  | cons e entries ih =>
    obtain ⟨k, v⟩ := e
    obtain ⟨hv, hentries⟩ := List.forall_mem_cons.mp h
    have hmerged : v.merged = v := by
      cases v with
      | array | object => exact hv.elim
      | _ => rfl
    rw [Json.mergedEntries, hmerged, ih hentries]

/-- Data with distinct keys and plain values are what an object of them holds. -/
theorem Fields.ofJson?_object {data : Fields} (hkeys : data.keys.Nodup) (hplain : ∀ e ∈ data, e.2.IsPlain) :
    Fields.ofJson? (.object data) = some data := by
  have hinsert : Fields.insertAll [] data = data := Fields.insertAll_of_disjoint hkeys (by simp)
  rw [Fields.ofJson?, Json.merged, Json.mergedEntries_of_isPlain hplain, hinsert]

theorem Json.list?_array {α : Type} {read : Json → Option α} {write : α → Json} {as : List α}
    (h : ∀ a ∈ as, read (write a) = some a) : Json.list? read (.array (as.map write)) = some as := by
  rw [Json.list?, Json.array?]
  induction as with
  | nil => rfl
  | cons a as ih =>
    obtain ⟨ha, has⟩ := List.forall_mem_cons.mp h
    have hrest := ih has
    simp only [Option.bind_eq_bind, Option.bind_some] at hrest ⊢
    rw [List.map_cons, List.mapM_cons, ha, hrest]
    rfl

theorem Point.ofJson?_toJson (p : Point) : Point.ofJson? p.toJson = some p := rfl

theorem Handle.ofText_text (h : Handle) : Handle.ofText h.text = h := by
  cases h <;> rfl

theorem Node.ofJson?_toJson {n : Node} (hkeys : n.data.keys.Nodup) (hplain : ∀ e ∈ n.data, e.2.IsPlain) :
    Node.ofJson? n.toJson = some n := by
  have hshape : Json.Shape.fields? { fields := [["id"], ["type"], ["data"], ["position"]] } n.toJson =
      some [some (.string n.id), some (.string n.kind), some (.object n.data), some n.position.toJson] := rfl
  rw [Node.ofJson?, hshape]
  simp [Json.required, Json.optional, Json.string?, Fields.ofJson?_object hkeys hplain, Point.ofJson?_toJson]

theorem Edge.ofJson?_toJson (e : Edge) : Edge.ofJson? e.toJson = some e := by
  have hshape : Edge.shape.fields? e.toJson = some [some (.string e.id), some (.string e.source),
      some (.string e.target), some (.string e.handle.text), some (.string e.targetHandle)] := rfl
  rw [Edge.ofJson?, hshape]
  simp [Json.required, Json.optional, Json.string?, Handle.ofJson?, Handle.ofText_text]

/-- A double that its text leads back to. -/
def Json.IsKept (x : Float) : Prop :=
  ∀ depth, Json.Reader.Takes (Json.Reader.value depth) (Json.scalar (.double x)).toList (.double x)

def Point.IsKept (p : Point) : Prop := Json.IsKept p.x ∧ Json.IsKept p.y

/-- A node whose record can be written and read. -/
structure Node.IsKept (n : Node) : Prop where
  keys : n.data.keys.Nodup
  plain : ∀ e ∈ n.data, e.2.IsPlain
  position : n.position.IsKept

theorem Json.IsPlain.readable {v : Json} (h : v.IsPlain) (depth : Nat) : Json.Readable depth v := by
  cases v with
  | string s => exact .string s
  | bool b => exact .bool b
  | _ => exact h.elim

theorem Node.IsKept.readable {n : Node} (h : n.IsKept) (depth : Nat) : Json.Readable (depth + 2) n.toJson := by
  have hdata : Json.Readable (depth + 1) (.object n.data) := .object fun e he => (h.plain e he).readable depth
  have hposition : Json.Readable (depth + 1) n.position.toJson := by
    apply Json.Readable.object
    simp only [List.forall_mem_cons]
    exact ⟨.double (h.position.1 depth), .double (h.position.2 depth), by simp⟩
  apply Json.Readable.object
  simp only [List.forall_mem_cons]
  exact ⟨.string _, .string _, hdata, hposition, by simp⟩

theorem Edge.readable (e : Edge) (depth : Nat) : Json.Readable (depth + 1) e.toJson := by
  apply Json.Readable.object
  simp only [List.forall_mem_cons]
  exact ⟨.string _, .string _, .string _, .string _, .string _, by simp⟩

namespace Reading

variable {r : Reading} (h : ∀ n ∈ r.document.graph.nodes, n.IsKept)
include h

theorem readable (depth : Nat) : Json.Readable (depth + 4) r.toJson := by
  have hnodes : Json.Readable (depth + 3) (.array (r.document.graph.nodes.map Node.toJson)) := by
    apply Json.Readable.array
    rw [List.forall_mem_map]
    exact fun n hn => (h n hn).readable depth
  have hedges : Json.Readable (depth + 3) (.array (r.document.graph.edges.map Edge.toJson)) := by
    apply Json.Readable.array
    rw [List.forall_mem_map]
    exact fun e _ => e.readable (depth + 1)
  have hwarnings : Json.Readable (depth + 3) (.array (r.warnings.map fun e => .string e.message)) := by
    apply Json.Readable.array
    rw [List.forall_mem_map]
    exact fun e _ => .string e.message
  apply Json.Readable.object
  rw [List.forall_mem_append, List.forall_mem_append]
  refine ⟨⟨?_, ?_⟩, ?_⟩
  · rw [Document.entries]
    simp only [List.forall_mem_cons]
    exact ⟨.string _, hnodes, hedges, by simp⟩
  · cases r.error with
    | none => simp
    | some e => exact List.forall_mem_singleton.mpr (.string e.message)
  · split
    · simp
    · exact List.forall_mem_singleton.mpr hwarnings

theorem ofJson?_toJson : Document.ofJson? r.toJson = some r.document := by
  have hnodes : Json.list? Node.ofJson? (.array (r.document.graph.nodes.map Node.toJson)) =
      some r.document.graph.nodes := Json.list?_array fun n hn => Node.ofJson?_toJson (h n hn).keys (h n hn).plain
  have hedges : Json.list? Edge.ofJson? (.array (r.document.graph.edges.map Edge.toJson)) =
      some r.document.graph.edges := Json.list?_array fun e _ => Edge.ofJson?_toJson e
  have hshape : Json.Shape.fields? { fields := [["header"], ["nodes"], ["edges"]] } r.toJson =
      some [some (.string r.document.header), some (.array (r.document.graph.nodes.map Node.toJson)),
        some (.array (r.document.graph.edges.map Edge.toJson))] := by
    unfold Reading.toJson
    cases r.error <;> split <;> rfl
  obtain ⟨entries, hentries⟩ : ∃ entries, r.toJson = .object entries := ⟨_, rfl⟩
  rw [hentries] at hshape ⊢
  rw [Document.ofJson?, hshape]
  simp [Json.optional, Json.string?, hnodes, hedges]

theorem ofText?_of_writes {write : Nat → Json → String} {gap : Nat → List Char} {space : List Char}
    (hw : Json.Writes (fun level v => (write level v).toList) gap space) {blanks : String}
    (hblanks : Json.Reader.IsBlank blanks.toList) :
    Document.ofText? (write 0 r.toJson ++ blanks) = some r.document := by
  have hread := Json.read?_of_takes (hw.takes (readable h 123) 0) hblanks
  rw [Document.ofText?, hread, Option.bind_some, ofJson?_toJson h]

end Reading

namespace Outline

/-- The node stands in one of the rows from `first` up to `last`, at most one level deeper for each row down. -/
def IsPlaced (layout : Layout) (depth first last : Nat) (n : Node) : Prop :=
  ∃ level row, n.position = layout.place level row ∧ level + first ≤ depth + row ∧ row < last

theorem IsPlaced.weaken {layout : Layout} {depth depth' first first' last last' : Nat} {n : Node}
    (h : IsPlaced layout depth first last n) (hf : depth + first' ≤ depth' + first) (hl : last ≤ last') :
    IsPlaced layout depth' first' last' n := by
  obtain ⟨level, row, hposition, hlevel, hrow⟩ := h
  exact ⟨level, row, hposition, by omega, by omega⟩

theorem isPlaced_nodeAt (layout : Layout) (mark : String) (depth row : Nat) (kind : String) (data : Fields) {last : Nat}
    (h : row < last) : IsPlaced layout depth row last (nodeAt layout mark depth row kind data) :=
  ⟨depth, row, rfl, Nat.le_refl _, h⟩

theorem mem_nodes_plant {layout : Layout} {mark : String} {P : Shape → String → Fields → Prop} {os : List Outline}
    (h : EveryAll P os) :
    ∀ depth handle row, ∀ n ∈ Tree.nodesAll (plant layout mark depth handle row os),
      (∃ shape, P shape n.kind n.data) ∧ IsPlaced layout depth row (row + sizeAll os) n := by
  induction os using listInduction with
  | nil => simp [plant, Tree.nodesAll]
  | leaf kind data os ih =>
    rw [EveryAll] at h
    obtain ⟨hnode, hos⟩ := h
    intro depth handle row n hn
    simp only [plant, Tree.nodesAll, Tree.nodes, List.append_nil, List.mem_cons] at hn
    simp only [sizeAll, size]
    rcases hn with rfl | hn
    · exact ⟨⟨_, hnode⟩, isPlaced_nodeAt layout mark depth row kind data (by omega)⟩
    · obtain ⟨hdata, hplaced⟩ := ih hos depth .flowOut (row + 1) n hn
      exact ⟨hdata, hplaced.weaken (by omega) (by omega)⟩
  | block kind data body os ihb iho =>
    rw [EveryAll] at h
    obtain ⟨hnode, hbody, hos⟩ := h
    intro depth handle row n hn
    simp only [plant, Tree.nodesAll, Tree.nodes, List.mem_append, List.mem_cons] at hn
    simp only [sizeAll, size]
    rcases hn with (rfl | hn) | hn
    · exact ⟨⟨_, hnode⟩, isPlaced_nodeAt layout mark depth row kind data (by omega)⟩
    · obtain ⟨hdata, hplaced⟩ := ihb hbody (depth + 1) .flowOut (row + 1) n hn
      exact ⟨hdata, hplaced.weaken (by omega) (by omega)⟩
    · obtain ⟨hdata, hplaced⟩ := iho hos depth handle _ n hn
      exact ⟨hdata, hplaced.weaken (by omega) (by omega)⟩
  | branch kind data consequent alternate os ihc iha iho =>
    rw [EveryAll] at h
    obtain ⟨hnode, hconsequent, halternate, hos⟩ := h
    intro depth handle row n hn
    simp only [plant, Tree.nodesAll, Tree.nodes, Tree.nodesAll_append, List.mem_append, List.mem_cons] at hn
    simp only [sizeAll, size]
    rcases hn with (rfl | hn | hn) | hn
    · exact ⟨⟨_, hnode⟩, isPlaced_nodeAt layout mark depth row kind data (by omega)⟩
    · obtain ⟨hdata, hplaced⟩ := ihc hconsequent (depth + 1) .onTrue (row + 1) n hn
      exact ⟨hdata, hplaced.weaken (by omega) (by omega)⟩
    · obtain ⟨hdata, hplaced⟩ := iha halternate (depth + 1) .onFalse _ n hn
      exact ⟨hdata, hplaced.weaken (by omega) (by omega)⟩
    · obtain ⟨hdata, hplaced⟩ := iho hos depth handle _ n hn
      exact ⟨hdata, hplaced.weaken (by omega) (by omega)⟩

end Outline

/-- The usual places are whole numbers. -/
theorem Layout.place_eq {level row : Nat} (hlevel : level ≤ 2 ^ 42) (hrow : row ≤ 2 ^ 42) :
    (Layout.ofSpacing {}).place level row = ⟨whole (100 + level * 100), whole (100 + row * 120)⟩ := by
  have hcoordinate {k step : Nat} (hk : k ≤ 2 ^ 42) (hpos : 0 < step) (hstep : step ≤ 120) :
      whole 100 + Float.ofNat k * whole step = whole (100 + k * step) := by
    have hproduct : k * step ≤ 2 ^ 42 * 120 := Nat.mul_le_mul hk hstep
    have hone : (1 : Float) = whole 1 := by decide +kernel
    rw [ofNat_of_lt (by omega), hone, ← whole, whole_mul (by omega) (by decide) (by decide) (by omega), Nat.mul_one,
      whole_mul (by omega) hpos (by omega) (by omega), whole_add (by decide) (by omega)]
  have hhundred : (100 : Float) = whole 100 := by decide +kernel
  have hstep : (120 : Float) = whole 120 := by decide +kernel
  rw [Layout.place, Layout.ofSpacing]
  dsimp only
  rw [hhundred, hstep, hcoordinate hlevel (by decide) (by decide), hcoordinate hrow (by decide) (by decide)]

/-- Unless there are too many of them, the nodes of a program are read back. -/
theorem Graph.isKept_ofProgram (p : Program) (mark : String)
    (hfar : 2 ^ 42 < (Graph.ofProgram (.ofSpacing {}) p mark).nodes.length →
      ∀ n ∈ (Graph.ofProgram (.ofSpacing {}) p mark).nodes, n.position.IsKept) :
    ∀ n ∈ (Graph.ofProgram (.ofSpacing {}) p mark).nodes, n.IsKept := by
  have hnodes := (Graph.grows_ofProgram (.ofSpacing {}) p mark).nodes
  have hlength : (Graph.ofProgram (.ofSpacing {}) p mark).nodes.length = Outline.sizeAll (Stmt.outlines p) := by
    rw [hnodes, Outline.length_plant]
  intro n hn
  obtain ⟨⟨shape, kind, -, hholds, -⟩, level, row, hposition, hlevel, hrow⟩ :=
    Outline.mem_nodes_plant (Outline.apt_outlines p) 0 .flowOut 0 n (hnodes ▸ hn)
  refine ⟨hholds.keys.nodup (NodeKind.nodup_keys kind hholds.mem), hholds.plain, ?_⟩
  by_cases hmany : 2 ^ 42 < (Graph.ofProgram (.ofSpacing {}) p mark).nodes.length
  · exact hfar hmany n hn
  · rw [hposition, Layout.place_eq (by omega) (by omega)]
    exact ⟨fun depth => Json.Reader.takes_whole (by omega) (by omega) depth,
      fun depth => Json.Reader.takes_whole (by omega) (by omega) depth⟩

theorem Reading.isKept_ofText {settings : Settings} (hlayout : settings.layout = {}) {source mark : String}
    {r : Reading} (hr : Reading.ofText settings source mark = r)
    (hfar : 2 ^ 42 < r.document.graph.nodes.length → ∀ n ∈ r.document.graph.nodes, n.position.IsKept) :
    ∀ n ∈ r.document.graph.nodes, n.IsKept := by
  unfold Reading.ofText at hr
  dsimp only at hr
  split at hr
  case h_1 recovered _ =>
    subst hr
    rw [hlayout] at hfar ⊢
    exact Graph.isKept_ofProgram recovered.program mark hfar
  case h_2 =>
    subst hr
    simp

section Tasks

variable {settings : Settings} {directory : Directory} {text mark : String} {marks : List String}

theorem isStandardInput_hyphen : isStandardInput "-" = true := by
  have hsplit : "-".splitOn "/" = ["-"] := by
    rw [String.splitOn, if_neg (by decide), String.splitOnAux, if_neg (by decide), if_neg (by decide),
      String.splitOnAux, if_pos (by decide)]
    decide
  rw [isStandardInput, hsplit]
  rfl

/-- A task that reads the standard input goes on with all of it. -/
theorem Host.run_readInput {α : Type} (next : String → ExceptT Failure (StateM Workspace) α) :
    (Host.inMemory.readInput "-" >>= next).run.run ⟨directory, text, marks⟩ =
      (next text).run.run ⟨directory, "", marks⟩ := by
  rw [Host.readInput, if_pos isStandardInput_hyphen]
  rfl

theorem Host.run_mark {α : Type} (next : String → ExceptT Failure (StateM Workspace) α) :
    (liftM Host.inMemory.mark >>= next).run.run ⟨directory, text, mark :: marks⟩ =
      (next mark).run.run ⟨directory, text, marks⟩ := rfl

theorem Task.run_toGraph {r : Reading} (hr : Reading.ofText settings text mark = r) (herror : r.error = none)
    (compact : Bool) :
    (Task.run Host.inMemory settings (.toGraph "-" none compact)).run.run ⟨directory, text, mark :: marks⟩ =
      (.ok { output := (if compact then r.toJson.compact else r.toJson.pretty 0) ++ "\n" },
        ⟨directory, "", marks⟩) := by
  rw [Task.run, Host.run_readInput, Host.run_mark, hr]
  dsimp only
  rw [herror]
  rfl

theorem Task.run_toText {d : Document} (hd : Document.ofText? text = some d) :
    (Task.run Host.inMemory settings (.toText "-" none none)).run.run ⟨directory, text, marks⟩ =
      (.ok { output := (d.render settings).text ++ "\n" }, ⟨directory, "", marks⟩) := by
  rw [Task.run, Host.run_readInput, hd]
  rfl

theorem Task.run_roundtrip {r : Reading} (hr : Reading.ofText settings text mark = r) (herror : r.error = none) :
    (Task.run Host.inMemory settings (.roundtrip "-" none)).run.run ⟨directory, text, mark :: marks⟩ =
      (.ok { output := (r.document.render settings).text ++ "\n" }, ⟨directory, "", marks⟩) := by
  rw [Task.run, Host.run_readInput, Host.run_mark, hr]
  dsimp only
  rw [herror]
  rfl

end Tasks

namespace Reading

variable {settings : Settings} {source mark : String}

/-- A reading without an error is that of a program that one of the parsers has accepted. -/
theorem exists_ofText (h : (ofText settings source mark).error = none) :
    ∃ header p errors, Outline.FitsAll maxDepth (Stmt.outlines p) ∧ ∀ mark, ofText settings source mark =
      { document := ⟨header, .ofProgram (.ofSpacing settings.layout) p mark⟩, warnings := errors } := by
  unfold ofText at h ⊢
  dsimp only at h ⊢
  split at h
  case h_1 recovered hrecovered =>
    refine ⟨_, recovered.program, recovered.errors, ?_, fun _ => rfl⟩
    split at hrecovered
    · exact Program.fits_of_parseRecovering hrecovered
    · cases hp : Program.parse (tokenize (SourceParts.ofText source).body (SourceParts.ofText source).bodyLine) with
      | error e => simp [hp, Except.map] at hrecovered
      | ok p =>
        obtain rfl : ⟨p, []⟩ = recovered := by simpa [hp, Except.map] using hrecovered
        exact Program.fits_of_parse hp
  case h_2 => cases h

theorem warnings_render (h : (ofText settings source mark).error = none) (hd : maxDepth ≤ settings.generator.maxDepth) :
    ((ofText settings source mark).document.render settings).warnings = [] := by
  obtain ⟨header, p, errors, hfits, hread⟩ := exists_ofText h
  rw [hread]
  exact Rendered.warnings_eq_nil_of_fits (hfits.mono hd) _ _ _

/-- Where nothing is cut off, a text that is read twice is written the same. -/
theorem text_render_remark (h : (ofText settings source mark).error = none)
    (hquiet : ((ofText settings source mark).document.render settings).warnings = []) (mark' : String) :
    (ofText settings source mark').error = none ∧ ((ofText settings source mark').document.render settings).text =
      ((ofText settings source mark).document.render settings).text := by
  obtain ⟨header, p, errors, -, hread⟩ := exists_ofText h
  rw [hread] at hquiet ⊢
  rw [hread]
  exact ⟨rfl, Rendered.text_remark _ _ _ _ _ hquiet⟩

end Reading

/-- The document of a script without errors survives as JSON: written on one line or on many, it is read as the same
header, nodes and edges. So the script of the written document is the script of the one that was read, whichever mark
that reading has, as long as nothing is cut off, and nothing is where the depth that the parser allows is allowed. The
positions of more than `2 ^ 42` nodes are taken to be read back. -/
theorem Reading.document_survives {settings : Settings} (hlayout : settings.layout = {}) {source mark : String}
    {r : Reading} (hr : Reading.ofText settings source mark = r) (herror : r.error = none)
    (hfar : 2 ^ 42 < r.document.graph.nodes.length → ∀ n ∈ r.document.graph.nodes, n.position.IsKept) :
    Document.ofText? r.toJson.compact = some r.document ∧ Document.ofText? (r.toJson.pretty 0) = some r.document ∧
    (maxDepth ≤ settings.generator.maxDepth → (r.document.render settings).warnings = []) ∧
    ∀ compact directory mark' marks, mark' = mark ∨ (r.document.render settings).warnings = [] → ∃ printed,
      (Task.run Host.inMemory settings (.toGraph "-" none compact)).run.run ⟨directory, source, mark :: marks⟩ =
        (.ok { output := printed }, ⟨directory, "", marks⟩) ∧
      (Task.run Host.inMemory settings (.toText "-" none none)).run.run ⟨directory, printed, marks⟩ =
        (Task.run Host.inMemory settings (.roundtrip "-" none)).run.run ⟨directory, source, mark' :: marks⟩ ∧
      (Task.run Host.inMemory settings (.roundtrip "-" none)).run.run ⟨directory, source, mark' :: marks⟩ =
        (.ok { output := (r.document.render settings).text ++ "\n" }, ⟨directory, "", marks⟩) := by
  have hkept := Reading.isKept_ofText hlayout hr hfar
  have hread {blanks : String} (hblanks : Json.Reader.IsBlank blanks.toList) :
      Document.ofText? (r.toJson.compact ++ blanks) = some r.document ∧
        Document.ofText? (r.toJson.pretty 0 ++ blanks) = some r.document :=
    ⟨Reading.ofText?_of_writes hkept Json.writes_compact hblanks,
      Reading.ofText?_of_writes hkept Json.writes_pretty hblanks⟩
  have hnewline : Json.Reader.IsBlank "\n".toList := by simp [Json.Reader.IsBlank, Json.Reader.isSpace]
  have hplain := @hread "" Json.isBlank_nil
  rw [String.append_empty, String.append_empty] at hplain
  subst hr
  refine ⟨hplain.1, hplain.2, Reading.warnings_render herror, fun compact directory mark' marks hquiet => ?_⟩
  have hsame : (ofText settings source mark').error = none ∧
      ((ofText settings source mark').document.render settings).text =
      ((ofText settings source mark).document.render settings).text := by
    rcases hquiet with rfl | hquiet
    · exact ⟨herror, rfl⟩
    · exact Reading.text_render_remark herror hquiet mark'
  have hroundtrip :
      (Task.run Host.inMemory settings (.roundtrip "-" none)).run.run ⟨directory, source, mark' :: marks⟩ =
      (.ok { output := ((ofText settings source mark).document.render settings).text ++ "\n" },
        ⟨directory, "", marks⟩) := by
    rw [Task.run_roundtrip rfl hsame.1, hsame.2]
  refine ⟨_, Task.run_toGraph rfl herror compact, ?_, hroundtrip⟩
  rw [hroundtrip]
  apply Task.run_toText
  cases compact with
  | true => exact (hread hnewline).1
  | false => exact (hread hnewline).2

theorem Reading.document_survives_escapes : ∃ source r,
    source = "-- \"\\\"\nCreateThread(function()\n\tx = '\"\\\t'\nend)" ∧
    Reading.ofText {} source "-0c7d41f2" = r ∧ r.error = none ∧ r.document.graph.nodes.length = 2 ∧
    Document.ofText? r.toJson.compact = some r.document ∧ Document.ofText? (r.toJson.pretty 0) = some r.document ∧
    ∀ compact directory, ∃ printed,
      (Task.run Host.inMemory {} (.toGraph "-" none compact)).run.run ⟨directory, source, ["-0c7d41f2"]⟩ =
        (.ok { output := printed }, ⟨directory, "", []⟩) ∧
      (Task.run Host.inMemory {} (.toText "-" none none)).run.run ⟨directory, printed, []⟩ =
        (Task.run Host.inMemory {} (.roundtrip "-" none)).run.run ⟨directory, source, ["-91d3a6f0"]⟩ ∧
      (Task.run Host.inMemory {} (.roundtrip "-" none)).run.run ⟨directory, source, ["-91d3a6f0"]⟩ =
        (.ok { output := (r.document.render {}).text ++ "\n" }, ⟨directory, "", []⟩) := by
  obtain ⟨source, hsource⟩ : ∃ source, source = "-- \"\\\"\nCreateThread(function()\n\tx = '\"\\\t'\nend)" := ⟨_, rfl⟩
  obtain ⟨r, hr⟩ : ∃ r, Reading.ofText {} source "-0c7d41f2" = r := ⟨_, rfl⟩
  have herror : r.error = none := by
    apply Option.isNone_iff_eq_none.mp
    rw [← hr, hsource]
    decide +kernel
  have hlength : r.document.graph.nodes.length = 2 := by
    rw [← hr, hsource]
    decide +kernel
  have hfar : 2 ^ 42 < r.document.graph.nodes.length → ∀ n ∈ r.document.graph.nodes, n.position.IsKept := by
    intro hmany
    omega
  obtain ⟨hcompact, hpretty, hquiet, hruns⟩ := Reading.document_survives rfl hr herror hfar
  exact ⟨source, r, hsource, hr, herror, hlength, hcompact, hpretty, fun compact directory =>
    hruns compact directory "-91d3a6f0" [] (.inr (hquiet (by decide)))⟩

end ScriptGraph
