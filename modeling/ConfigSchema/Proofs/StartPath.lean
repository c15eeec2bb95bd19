import ConfigSchema.Proofs.Reporting

/-!
# `Outcome.nodes_started` — what a start path does to the nodes

The nodes of an outcome can be listed from any start path. Below a start path that is not empty, the path of a node
is the start path and the segments that lead to the node, joined by dots (`foldl_childPath`). Below the empty one it
is the segments alone, but empty keys at the front leave no dot behind: whether to write a dot is decided by the path
so far, which is still empty after them (`foldl_childPath_empty`).

So the paths from a start path `p` are those from the empty one with `p` and a dot in front, unless a node stands
below an empty key of the root. `Outcome.nodes_started` says that this is the only exception, and what follows for
reports.
-/

namespace ConfigSchema

/-! ## Paths -/

theorem Segment.text_eq_empty_iff {segment : Segment} : segment.text = "" ↔ segment = .key "" := by
  cases segment with
  | key name => simp [text]
  | index i => simp [text]

namespace Outcome

/-- Below a path that is not empty, the segments are joined to it by dots. -/
theorem foldl_childPath {path : String} (h : path ≠ "") (segments : List Segment) :
    segments.foldl childPath path = String.intercalate "." (path :: segments.map Segment.text) := by
  induction segments generalizing path with
  | nil => simp
  | cons segment rest ih =>
      have hchild : childPath path segment = path ++ "." ++ segment.text := if_neg h
      have hne : childPath path segment ≠ "" := by simp [hchild]
      rw [List.foldl_cons, ih hne, hchild, List.map_cons, String.intercalate_cons_append,
        String.intercalate_cons_cons]

/-- Below the empty path they are joined to each other, from the first one on that is not empty. -/
theorem foldl_childPath_empty (segments : List Segment) :
    segments.foldl childPath "" = String.intercalate "." ((segments.map Segment.text).dropWhile (· = "")) := by
  induction segments with
  | nil => rfl
  | cons segment rest ih =>
      have hchild : childPath "" segment = segment.text := if_pos rfl
      rw [List.foldl_cons, hchild, List.map_cons, List.dropWhile_cons]
      by_cases hempty : segment.text = ""
      · simp [hempty, ih]
      · simp [hempty, foldl_childPath hempty]

theorem length_intercalate_dropWhile_le (texts : List String) :
    (String.intercalate "." (texts.dropWhile (· = ""))).length ≤ (String.intercalate "." texts).length := by
  induction texts with
  | nil => exact Nat.le_refl _
  | cons text rest ih =>
      rw [List.dropWhile_cons]
      split
      · cases rest with
        | nil => simp
        | cons next rest =>
            rw [String.intercalate_cons_cons, String.length_append]
            omega
      · exact Nat.le_refl _

/-- **The start path is a prefix**, unless an empty key is followed by further segments. -/
theorem foldl_childPath_iff {path : String} (h : path ≠ "") (segment : Segment) (rest : List Segment) :
    (segment :: rest).foldl childPath path = path ++ "." ++ (segment :: rest).foldl childPath "" ↔
      (segment = .key "" → rest = []) := by
  rw [foldl_childPath h, foldl_childPath_empty, List.map_cons,
    String.intercalate_cons_of_ne_nil (List.cons_ne_nil _ _), String.append_right_inj, List.dropWhile_cons]
  by_cases hempty : segment.text = ""
  · rw [if_pos (decide_eq_true hempty), hempty, ← Segment.text_eq_empty_iff]
    cases rest with
    | nil => simp
    | cons next rest =>
        -- The dot after the empty key is missing on the other side.
        have hle := length_intercalate_dropWhile_le ((next :: rest).map Segment.text)
        have hcons : String.intercalate "." ("" :: (next :: rest).map Segment.text) =
            "" ++ "." ++ String.intercalate "." ((next :: rest).map Segment.text) :=
          String.intercalate_cons_of_ne_nil (List.cons_ne_nil _ _)
        have hlength := congrArg String.length hcons
        rw [String.length_append] at hlength
        constructor
        · intro heq
          rw [heq] at hlength
          have hdot : ("" ++ "." : String).length = 1 := rfl
          omega
        · intro hrest
          exact absurd (hrest hempty) (List.cons_ne_nil _ _)
  · have hkey : segment ≠ .key "" := fun hkey => hempty (Segment.text_eq_empty_iff.mpr hkey)
    simp [hempty, hkey]

/-! ## Nodes with the segments that lead to them -/

/-- The segments that lead to an address, and the tree that stands there. -/
def partAt? : Outcome → Address → Option (List Segment × Outcome)
  | outcome, [] => some ([], outcome)
  | outcome, i :: below =>
      outcome.entries[i]?.bind fun e => (e.2.partAt? below).map fun part => (e.1 :: part.1, part.2)

/-- The node that a part is listed as, from a start path. -/
def nodeFrom (path : String) (part : List Segment × Outcome) : Node :=
  ⟨part.1.foldl childPath path, part.2.isOk, part.2⟩

theorem nodeAt?_eq (outcome : Outcome) (path : String) (address : Address) :
    outcome.nodeAt? path address = (outcome.partAt? address).map (nodeFrom path) := by
  induction address generalizing outcome path with
  | nil => rfl
  | cons i below ih =>
      rw [nodeAt?, partAt?, Option.map_bind]
      refine Option.bind_congr fun e _ => ?_
      rw [ih, Function.comp_apply, Option.map_map]
      rfl

/-- The parts below the root, in postorder. -/
def descendants (outcome : Outcome) : List (List Segment × Outcome) :=
  (addressesFrom 0 outcome.entries).filterMap outcome.partAt?

/-- The nodes are those of the descendants, and the root. -/
theorem nodes_eq_descendants (outcome : Outcome) (path : String) :
    outcome.nodes path = outcome.descendants.map (nodeFrom path) ++ [⟨path, outcome.isOk, outcome⟩] := by
  have hat : outcome.nodeAt? path = fun address => (outcome.partAt? address).map (nodeFrom path) :=
    funext (nodeAt?_eq outcome path)
  rw [nodes_eq, addresses_eq, List.filterMap_append, hat, descendants, List.map_filterMap]
  rfl

theorem mem_descendants {outcome : Outcome} {part : List Segment × Outcome} :
    part ∈ outcome.descendants ↔ ∃ e ∈ outcome.entries, ∃ below rest,
      e.2.partAt? below = some rest ∧ part = (e.1 :: rest.1, rest.2) := by
  rw [descendants, List.mem_filterMap]
  constructor
  · rintro ⟨address, haddress, hpart⟩
    obtain ⟨i, e, below, he, -, rfl⟩ := mem_addressesFrom.mp haddress
    rw [Nat.zero_add, partAt?, he, Option.bind_some] at hpart
    obtain ⟨rest, hrest, rfl⟩ := Option.map_eq_some_iff.mp hpart
    exact ⟨e, List.mem_of_getElem? he, below, rest, hrest, rfl⟩
  · rintro ⟨e, he, below, rest, hrest, rfl⟩
    obtain ⟨i, hi⟩ := List.mem_iff_getElem?.mp he
    have hbelow : below ∈ e.2.addresses := by
      rw [mem_addresses_iff e.2 "", nodeAt?_eq, hrest]
      rfl
    refine ⟨i :: below, mem_addressesFrom.mpr ⟨i, e, below, hi, hbelow, by rw [Nat.zero_add]⟩, ?_⟩
    rw [partAt?, hi, Option.bind_some, hrest]
    rfl

/-- **No hidden keys.** What stands under an empty key of the root has no items of its own. -/
def NothingUnnamed (outcome : Outcome) : Prop :=
  ∀ e ∈ outcome.entries, e.1 = .key "" → e.2.entries = []

/-- An empty key at the root is followed by further segments exactly if something stands below it. -/
theorem nothingUnnamed_iff {outcome : Outcome} :
    outcome.NothingUnnamed ↔ ∀ part ∈ outcome.descendants, ∀ segment rest,
      part.1 = segment :: rest → segment = .key "" → rest = [] := by
  constructor
  · rintro h part hpart segment rest heq hempty
    obtain ⟨e, he, below, part', hpart', rfl⟩ := mem_descendants.mp hpart
    obtain ⟨rfl, rfl⟩ := List.cons.inj heq
    cases below with
    | nil => exact congrArg Prod.fst (Option.some.inj hpart').symm
    | cons i below =>
        rw [partAt?, h e he hempty] at hpart'
        exact absurd hpart' (by simp)
  · intro h e he hempty
    cases hentries : e.2.entries with
    | nil => rfl
    | cons first others =>
        have hfirst : e.2.partAt? [0] = some ([first.1], first.2) := by simp [partAt?, hentries]
        have hmem := mem_descendants.mpr ⟨e, he, [0], _, hfirst, rfl⟩
        exact absurd (h _ hmem e.1 [first.1] rfl hempty) (List.cons_ne_nil _ _)

end Outcome

/-! ## Nodes and reports below a start path -/

/-- The node with its path below a start path. -/
def Node.under (start : String) (node : Node) : Node := { node with path := start ++ "." ++ node.path }

/-- The finding with its path below a start path. -/
def Finding.under (start : String) (finding : Finding) : Finding :=
  { finding with path := start ++ "." ++ finding.path }

/-- The report with all its paths below a start path. -/
def Report.under (start : String) (report : Report) : Report :=
  ⟨report.errors.map (Finding.under start), report.warnings.map (Finding.under start)⟩

theorem Node.error?_under (start : String) (node : Node) :
    (node.under start).error? = node.error?.map (Finding.under start) := by
  have hok : (node.under start).ok = node.ok := rfl
  rw [error?, error?, hok]
  split
  · rfl
  · rw [Option.map_map]
    rfl

theorem Node.warning?_under (start : String) (node : Node) :
    (node.under start).warning? = node.warning?.map (Finding.under start) := by
  rw [warning?, warning?, Option.map_map]
  rfl

namespace Report

/-- What the nodes below the root have to say. -/
def collectBelow (outcome : Outcome) (path : String) : Report :=
  let nodes := (outcome.nodes path).dropLast
  ⟨nodes.filterMap Node.error?, nodes.filterMap Node.warning?⟩

/-- A report is what the nodes below the root have to say, and then the root. -/
theorem collect_eq (outcome : Outcome) (path : String) :
    let root : Node := ⟨path, outcome.isOk, outcome⟩
    collect outcome path = ⟨(collectBelow outcome path).errors ++ root.error?.toList,
      (collectBelow outcome path).warnings ++ root.warning?.toList⟩ := by
  intro root
  rw [collect, collectBelow, Outcome.nodes_eq_descendants, List.dropLast_concat]
  simp only [List.filterMap_append, List.filterMap_cons, List.filterMap_nil]
  cases root.error? <;> cases root.warning? <;> rfl

end Report

namespace Outcome

/-- **The start path is a prefix.** From any start path, the same nodes are listed in the same order, and the root,
    which comes last, has the start path itself. Every other node has the path that it has from the empty start path,
    with the start path and a dot in front, exactly if nothing stands below an empty key of the root. Then the
    findings below the root are those from the empty start path, with their paths below the start path. -/
theorem nodes_started (outcome : Outcome) {start : String} (h : start ≠ "") :
    ((outcome.nodes start).map fun node => (node.ok, node.outcome)) =
        ((outcome.nodes "").map fun node => (node.ok, node.outcome)) ∧
      (outcome.nodes start).getLast? = some ⟨start, outcome.isOk, outcome⟩ ∧
      ((outcome.nodes start).dropLast = (outcome.nodes "").dropLast.map (Node.under start) ↔
        outcome.NothingUnnamed) ∧
      (outcome.NothingUnnamed →
        let below := (Report.collectBelow outcome "").under start
        let root : Node := ⟨start, outcome.isOk, outcome⟩
        Report.collectBelow outcome start = below ∧
          (Report.collect outcome start).errors = below.errors ++ root.error?.toList ∧
          (Report.collect outcome start).warnings = below.warnings ++ root.warning?.toList) := by
  have hbelow : ∀ path, (outcome.nodes path).dropLast = outcome.descendants.map (nodeFrom path) := by
    intro path
    rw [nodes_eq_descendants, List.dropLast_concat]
  have hlaw : (outcome.nodes start).dropLast = (outcome.nodes "").dropLast.map (Node.under start) ↔
      outcome.NothingUnnamed := by
    rw [hbelow, hbelow, List.map_map, List.map_inj_left, nothingUnnamed_iff]
    refine forall_congr' fun part => imp_congr_right fun hpart => ?_
    -- A descendant has segments, and its path from `start` is as it should be under the condition on them.
    obtain ⟨e, -, _, rest, -, rfl⟩ := mem_descendants.mp hpart
    have hiff := foldl_childPath_iff h e.1 rest.1
    constructor
    · rintro heq segment others ⟨⟩
      exact hiff.mp (congrArg Node.path heq)
    · intro hrest
      exact congrArg (fun path => Node.mk path rest.2.isOk rest.2) (hiff.mpr (hrest _ _ rfl))
  refine ⟨?_, ?_, hlaw, fun hnothing => ?_⟩
  · rw [nodes_eq_descendants, nodes_eq_descendants, List.map_append, List.map_append, List.map_map, List.map_map]
    rfl
  · rw [nodes_eq_descendants, List.getLast?_concat]
  · have hreport : Report.collectBelow outcome start = (Report.collectBelow outcome "").under start := by
      rw [Report.collectBelow, hlaw.mpr hnothing, List.filterMap_map, List.filterMap_map, Report.under,
        Report.collectBelow, List.map_filterMap, List.map_filterMap]
      have herror : Node.error? ∘ Node.under start = fun node => node.error?.map (Finding.under start) :=
        funext (Node.error?_under start)
      have hwarning : Node.warning? ∘ Node.under start = fun node => node.warning?.map (Finding.under start) :=
        funext (Node.warning?_under start)
      rw [herror, hwarning]
    intro below root
    rw [Report.collect_eq, hreport]
    exact ⟨rfl, rfl, rfl⟩

/-- The port fails, and the server, whose empty key holds a leaf, warns. -/
theorem nodes_started_config :
    let port := failed "number" .null (some "deprecated")
    let server := items [(.key "", pass), (.key "port", port)] (some "unrecognized")
    let outcome := items [(.key "server", server), (.key "", pass)] none
    let report := Report.collect outcome "config"
    "config" ≠ "" ∧ outcome.NothingUnnamed ∧
      (outcome.nodes "config").dropLast = (outcome.nodes "").dropLast.map (Node.under "config") ∧
      (outcome.nodes "").map Node.path = ["server.", "server.port", "server", "", ""] ∧
      (outcome.nodes "config").map Node.path =
        ["config.server.", "config.server.port", "config.server", "config.", "config"] ∧
      report.errors = (Report.collect outcome "").errors.map (Finding.under "config") ∧
      report.warnings.map Finding.path = ["config.server.port", "config.server"] := by
  intro port server outcome report
  have hstart : "config" ≠ "" := by decide
  have hnothing : outcome.NothingUnnamed := by simp [outcome, NothingUnnamed, entries, pass]
  obtain ⟨-, -, hlaw, hreport⟩ := nodes_started outcome hstart
  have herrors := (hreport hnothing).2.1
  exact ⟨hstart, hnothing, hlaw.mpr hnothing, by decide, by decide, herrors, by decide⟩

/-- The leaf below the empty key is listed as `a` from the empty start path, but not as `p.a` from `p`. -/
theorem nodes_started_unnamed :
    let outcome := collection [(.key "", collection [(.key "a", mismatch "int" .null)])]
    (outcome.nodes "p").dropLast.map Node.path = ["p..a", "p."] ∧
      ((outcome.nodes "").dropLast.map (Node.under "p")).map Node.path = ["p.a", "p."] ∧
      (Report.collectBelow outcome "p").errors.map Finding.path = ["p..a"] ∧
      ((Report.collectBelow outcome "").under "p").errors.map Finding.path = ["p.a"] := by
  decide

end Outcome

end ConfigSchema
