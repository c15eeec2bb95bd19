import ConfigSchema.Proofs.Postorder
import ConfigSchema.Report

/-!
# `Report.collect_postorder` — a report says all that an outcome says

What a node of an outcome has to say is read off the outcome itself, whatever has been found out about its verdict: a
failed leaf has an error (`Node.refusal?`), and a node of any form has the warning that it carries, unless that is
empty (`Node.advice?`).

A report is collected from the nodes that are not ok. Most of these are containers, which have no message of their
own; it is the failed leaves below them that are reported. This module shows that nothing is lost on the way: the
errors are those of all failed leaves and the warnings are those of all nodes, in postorder, and a container that
fails has a failed leaf below it (`Outcome.isOk_eq_false_iff`). So the report on a failure is never empty.
-/

namespace ConfigSchema

/-! ## What a node has to say -/

namespace Node

/-- The error of a failed leaf: what was expected, and the kind and the text of what was found. -/
def refusal? (node : Node) : Option Finding :=
  match node.outcome with
  | .failed expected actual _ =>
      some ⟨node.path, "expected: " ++ expected ++ ", got: " ++ actual.kind.name ++ " (" ++ actual.display ++ ")"⟩
  | _ => none

/-- The warning that a node carries, be it ok or not, unless it is empty. -/
def advice? (node : Node) : Option Finding :=
  match node.outcome with
  | .passed (some text) | .failed _ _ (some text) | .items _ (some text) =>
      if text = "" then none else some ⟨node.path, text⟩
  | _ => none

/-- A leaf that is refused has failed. -/
theorem isOk_of_refusal {node : Node} (h : node.refusal?.isSome) : node.outcome.isOk = false := by
  obtain ⟨path, ok, outcome⟩ := node
  cases outcome with
  | failed expected actual warning => rfl
  | _ => exact absurd h Bool.noConfusion

/-- To report the nodes that are not ok is to report the failed leaves. -/
theorem error?_eq {node : Node} (h : node.ok = node.outcome.isOk) : node.error? = node.refusal? := by
  obtain ⟨path, ok, outcome⟩ := node
  obtain rfl : ok = outcome.isOk := h
  cases outcome with
  | failed expected actual warning => rfl
  | passed warning => rfl
  | items entries warning =>
      -- A container has no message, whether it is ok or not.
      exact ite_self none

theorem warning?_eq (node : Node) : node.warning? = node.advice? := by
  have hfilter : ∀ text : String, ((some text).filter (· ≠ "")).map (Finding.mk node.path) =
      if text = "" then none else some ⟨node.path, text⟩ := by
    intro text
    by_cases htext : text = "" <;> simp [htext]
  obtain ⟨path, ok, outcome⟩ := node
  cases outcome with
  | passed warning | failed expected actual warning | items entries warning =>
      cases warning with
      | none => rfl
      | some text => exact hfilter text

end Node

/-! ## Failures -/

namespace Outcome

/-- An outcome with an item that is not ok is not ok. -/
theorem isOk_of_item {outcome : Outcome} {e : Segment × Outcome} (he : e ∈ outcome.entries)
    (h : e.2.isOk = false) : outcome.isOk = false := by
  cases outcome with
  | items entries warning =>
      rw [← Bool.not_eq_true, isOk_items_iff]
      intro hall
      simp [hall e he] at h
  | _ => exact absurd he List.not_mem_nil

/-- **A failure has a failed leaf in it**, and only a failure has. -/
theorem isOk_eq_false_iff (outcome : Outcome) (path : String) :
    outcome.isOk = false ↔
      ∃ address node, outcome.nodeAt? path address = some node ∧ node.refusal?.isSome := by
  induction outcome using Outcome.induction generalizing path with
  | step outcome ih =>
    constructor
    · intro h
      cases outcome with
      | passed warning => simp [isOk] at h
      | failed expected actual warning => exact ⟨[], _, rfl, rfl⟩
      | items entries warning =>
          obtain ⟨e, he, hitem⟩ : ∃ e ∈ entries, e.2.isOk = false := by
            rw [← Bool.not_eq_true, isOk_items_iff] at h
            simpa using h
          obtain ⟨i, hi⟩ := List.mem_iff_getElem?.mp he
          -- The failed leaf of the item stands below its index.
          obtain ⟨below, node, hnode, hrefusal⟩ := (ih e he (childPath path e.1)).mp hitem
          refine ⟨i :: below, node, ?_, hrefusal⟩
          have hitem : (items entries warning).entries[i]? = some e := hi
          simp [nodeAt?, hitem, hnode]
    · rintro ⟨address, node, hnode, hrefusal⟩
      cases address with
      | nil =>
          obtain rfl := Option.some.inj hnode
          exact Node.isOk_of_refusal hrefusal
      | cons i below =>
          obtain ⟨e, he, hbelow⟩ := Option.bind_eq_some_iff.mp hnode
          have hmem : e ∈ outcome.entries := List.mem_of_getElem? he
          exact isOk_of_item hmem ((ih e hmem (childPath path e.1)).mpr ⟨below, node, hbelow, hrefusal⟩)

end Outcome

/-! ## Reports -/

namespace Report

theorem errors_collect (outcome : Outcome) (path : String) : (collect outcome path).errors =
    outcome.addresses.filterMap fun address => (outcome.nodeAt? path address).bind Node.refusal? := by
  simp only [collect, Outcome.nodes_eq, List.filterMap_filterMap]
  refine List.filterMap_congr fun address _ => ?_
  cases hnode : outcome.nodeAt? path address with
  | none => rfl
  | some node => exact Node.error?_eq (Outcome.ok_of_nodeAt hnode)

theorem warnings_collect (outcome : Outcome) (path : String) : (collect outcome path).warnings =
    outcome.addresses.filterMap fun address => (outcome.nodeAt? path address).bind Node.advice? := by
  simp only [collect, Outcome.nodes_eq, List.filterMap_filterMap, funext Node.warning?_eq]

/-- **There is an error exactly for a failure.** -/
theorem hasErrors_collect (outcome : Outcome) (path : String) :
    (collect outcome path).hasErrors = true ↔ outcome.isOk = false := by
  have herrors : (collect outcome path).hasErrors = true ↔ ∃ error, error ∈ (collect outcome path).errors := by
    simp [hasErrors, List.eq_nil_iff_forall_not_mem]
  rw [herrors, errors_collect, outcome.isOk_eq_false_iff path]
  constructor
  · rintro ⟨error, herror⟩
    obtain ⟨address, -, hfound⟩ := List.mem_filterMap.mp herror
    obtain ⟨node, hnode, hrefusal⟩ := Option.bind_eq_some_iff.mp hfound
    exact ⟨address, node, hnode, Option.isSome_of_eq_some hrefusal⟩
  · rintro ⟨address, node, hnode, hrefusal⟩
    obtain ⟨error, herror⟩ := Option.isSome_iff_exists.mp hrefusal
    have hmem : address ∈ outcome.addresses :=
      (outcome.mem_addresses_iff path address).mpr (Option.isSome_of_eq_some hnode)
    exact ⟨error, List.mem_filterMap.mpr ⟨address, hmem, Option.bind_eq_some_iff.mpr ⟨node, hnode, herror⟩⟩⟩

/-- **A report loses nothing and invents nothing.** The errors are one for every failed leaf and the warnings one for
    every node, ok or not, whose warning is not empty, each list in postorder. There is an error exactly if the outcome
    is not ok, and exactly then there is a report on the failure, which is the one collected. -/
theorem collect_postorder (outcome : Outcome) (path : String) :
    let report := collect outcome path
    (∃ addresses, outcome.Postorder addresses ∧
      report.errors = (addresses.filterMap fun address => (outcome.nodeAt? path address).bind Node.refusal?) ∧
      report.warnings = addresses.filterMap fun address => (outcome.nodeAt? path address).bind Node.advice?) ∧
    (report.hasErrors = true ↔ outcome.isOk = false) ∧
    ((ofFailure? outcome path).isSome = true ↔ outcome.isOk = false) ∧
    ∀ found ∈ ofFailure? outcome path, found = report ∧ found.errors ≠ [] := by
  intro report
  have herrors := hasErrors_collect outcome path
  refine ⟨⟨outcome.addresses, outcome.postorder_addresses, errors_collect outcome path,
    warnings_collect outcome path⟩, herrors, ?_, ?_⟩
  · unfold ofFailure?
    cases outcome.isOk <;> simp
  · intro found hfound
    unfold ofFailure? at hfound
    by_cases hok : outcome.isOk = true
    · simp [hok] at hfound
    · obtain rfl : report = found := by simpa [hok] using hfound
      refine ⟨rfl, fun hnil => ?_⟩
      have hsome := herrors.mpr (Bool.eq_false_iff.mpr hok)
      simp [hasErrors, report, hnil] at hsome

/-- The empty warning is left out. The port comes before the server that it makes fail, and both of them warn. So does
    the mode, which has passed, and there is a warning even where there is no failure to report on. -/
theorem collect_postorder_server :
    let mode := Outcome.passed (some "deprecated")
    let port := Outcome.failed "number" .null (some "deprecated")
    let tags := Outcome.items [(.index 0, .passed (some "")), (.index 1, mode)] (some "unrecognized")
    let server := Outcome.items [(.key "mode", mode), (.key "tags", tags), (.key "port", port)] none
    let outcome := Outcome.collection [(.key "server", server)]
    let report := collect outcome ""
    report.errors = [⟨"server.port", "expected: number, got: null (null)"⟩] ∧
      report.warnings = [⟨"server.mode", "deprecated"⟩, ⟨"server.tags.1", "deprecated"⟩,
        ⟨"server.tags", "unrecognized"⟩, ⟨"server.port", "deprecated"⟩] ∧
      ofFailure? outcome "" = some report ∧ report.hasErrors = true ∧ report.errors ≠ [] ∧
      collect tags "tags" = ⟨[], [⟨"tags.1", "deprecated"⟩, ⟨"tags", "unrecognized"⟩]⟩ ∧
      (collect tags "tags").hasErrors = false ∧ ofFailure? tags "tags" = none := by
  intro mode port tags server outcome report
  obtain ⟨-, herrors, -, hfound⟩ := collect_postorder outcome ""
  obtain ⟨-, herrors', hreport, -⟩ := collect_postorder tags "tags"
  have hok : tags.isOk = true := rfl
  refine ⟨by decide, by decide, rfl, herrors.mpr rfl, (hfound report rfl).2, by decide, ?_, ?_⟩
  · exact Bool.eq_false_iff.mpr fun h => Bool.eq_false_iff.mp (herrors'.mp h) hok
  · exact Option.not_isSome_iff_eq_none.mp fun h => Bool.eq_false_iff.mp (hreport.mp h) hok

end Report

end ConfigSchema
