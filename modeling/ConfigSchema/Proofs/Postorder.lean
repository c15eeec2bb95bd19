import Mathlib.Data.List.Sort
import ConfigSchema.Outcome.Nodes

/-!
# `Outcome.Postorder` — the nodes of an outcome, each once, behind its descendants

A node of an outcome has an *address*: at each level from the root down, which of the items to take, counted from
zero. Segments would not do, for an outcome may list two items under one segment; at an address there is one node
at most.

`Address.Before` is the order in which nodes are listed: what stands below a node comes before it, and what stands
below an earlier item comes before what stands below a later one. A `Postorder` is a list of all addresses of a
tree in that order. There is exactly one (`postorder_addresses`, `Postorder.unique`), and it is the order of
`Outcome.nodes` (`nodes_eq`, `nodes_postorder`).
-/

namespace ConfigSchema

/-! ## Addresses -/

/-- The way to a node: which item to take at each level. -/
abbrev Address := List Nat

namespace Address

/-- **Descendants come first**, and then the items in order. -/
def Before : Address → Address → Prop
  | [], _ => False
  | _ :: _, [] => True
  | i :: below, j :: below' => i < j ∨ i = j ∧ Before below below'

theorem Before.irrefl (address : Address) : ¬ Before address address := by
  induction address with
  | nil => exact id
  | cons i below ih => simp [Before, ih]

theorem Before.asymm {a b : Address} (h : Before a b) : ¬ Before b a := by
  induction a generalizing b with
  | nil => exact absurd h id
  | cons i below ih =>
      cases b with
      | nil => exact id
      | cons j below' =>
          rintro (hlt | ⟨rfl, h'⟩)
          · rcases h with hgt | ⟨rfl, -⟩ <;> omega
          · rcases h with hlt | ⟨-, h⟩
            · omega
            · exact ih h h'

instance : Std.Irrefl Before := ⟨Before.irrefl⟩

instance : Std.Antisymm Before := ⟨fun _ _ h h' => absurd h' h.asymm⟩

end Address

namespace Outcome

/-- What holds of an outcome whenever it holds of the outcomes of its items holds of every outcome. -/
theorem induction {P : Outcome → Prop} (step : ∀ outcome : Outcome, (∀ e ∈ outcome.entries, P e.2) → P outcome)
    (outcome : Outcome) : P outcome := by
  refine step outcome fun e he => ?_
  have hlt : sizeOf e.2 < sizeOf outcome := by
    cases outcome with
    | items entries warning =>
        have hentry := List.sizeOf_lt_of_mem (show e ∈ entries from he)
        obtain ⟨segment, outcome⟩ := e
        simp only [Prod.mk.sizeOf_spec, items.sizeOf_spec] at hentry ⊢
        omega
    | _ => exact absurd he List.not_mem_nil
  exact induction step e.2
termination_by sizeOf outcome

/-- The node at an address, in the tree at `path`. -/
def nodeAt? (outcome : Outcome) (path : String) : Address → Option Node
  | [] => some ⟨path, outcome.isOk, outcome⟩
  | i :: below => outcome.entries[i]?.bind fun e => e.2.nodeAt? (childPath path e.1) below

mutual

/-- The addresses of all nodes, in the order in which the nodes are listed. -/
def addresses : Outcome → List Address
  | items entries _ => addressesFrom 0 entries ++ [[]]
  | _ => [[]]

/-- The addresses in some items, the first of which is the item at `i`. -/
def addressesFrom (i : Nat) : List (Segment × Outcome) → List Address
  | [] => []
  | (_, outcome) :: rest => (addresses outcome).map (i :: ·) ++ addressesFrom (i + 1) rest

end

theorem addresses_eq (outcome : Outcome) : outcome.addresses = addressesFrom 0 outcome.entries ++ [[]] := by
  cases outcome <;> rfl

theorem mem_addressesFrom {i : Nat} {entries : List (Segment × Outcome)} {address : Address} :
    address ∈ addressesFrom i entries ↔
      ∃ k e below, entries[k]? = some e ∧ below ∈ e.2.addresses ∧ address = (i + k) :: below := by
  induction entries generalizing i with
  | nil => simp [addressesFrom]
  | cons first rest ih =>
      rw [addressesFrom, List.mem_append, List.mem_map, ih]
      constructor
      · rintro (⟨below, hbelow, rfl⟩ | ⟨k, e, below, he, hbelow, rfl⟩)
        · exact ⟨0, first, below, rfl, hbelow, rfl⟩
        · exact ⟨k + 1, e, below, he, hbelow, by rw [Nat.add_assoc, Nat.add_comm 1]⟩
      · rintro ⟨k, e, below, he, hbelow, rfl⟩
        cases k with
        | zero =>
            obtain rfl : first = e := by simpa using he
            exact .inl ⟨below, hbelow, rfl⟩
        | succ k => exact .inr ⟨k, e, below, he, hbelow, by rw [Nat.add_assoc, Nat.add_comm 1]⟩

/-! ## Postorder -/

/-- **A postorder**: the addresses of all nodes, each behind those that have to come before. -/
structure Postorder (outcome : Outcome) (addresses : List Address) : Prop where
  complete : ∀ path address, address ∈ addresses ↔ (outcome.nodeAt? path address).isSome
  sorted : addresses.Pairwise Address.Before

namespace Postorder

variable {outcome : Outcome} {addresses addresses' : List Address}

/-- No address is listed twice. -/
theorem nodup (h : outcome.Postorder addresses) : addresses.Nodup := h.sorted.nodup

/-- A tree has one postorder. -/
theorem unique (h : outcome.Postorder addresses) (h' : outcome.Postorder addresses') : addresses = addresses' :=
  h.sorted.eq_of_mem_iff h'.sorted fun address => by rw [h.complete "", h'.complete ""]

end Postorder

theorem mem_addresses_iff (outcome : Outcome) (path : String) (address : Address) :
    address ∈ outcome.addresses ↔ (outcome.nodeAt? path address).isSome := by
  induction address generalizing outcome path with
  | nil => simp [addresses_eq, nodeAt?]
  | cons i below ih =>
      rw [addresses_eq, List.mem_append, mem_addressesFrom, nodeAt?]
      cases he : outcome.entries[i]? with
      | none => simp [he]
      | some e =>
          obtain ⟨segment, item⟩ := e
          simp [he, ih item (childPath path segment)]

theorem sorted_addressesFrom {entries : List (Segment × Outcome)}
    (h : ∀ e ∈ entries, e.2.addresses.Pairwise Address.Before) (i : Nat) :
    (addressesFrom i entries).Pairwise Address.Before := by
  induction entries generalizing i with
  | nil => exact .nil
  | cons first rest ih =>
      rw [addressesFrom, List.pairwise_append, List.pairwise_map]
      refine ⟨?_, ih (fun e he => h e (List.mem_cons_of_mem _ he)) (i + 1), ?_⟩
      · exact (h first List.mem_cons_self).imp fun hab => .inr ⟨rfl, hab⟩
      · -- Whatever stands below a later item has a greater index in front.
        intro a ha b hb
        obtain ⟨below, -, rfl⟩ := List.mem_map.mp ha
        obtain ⟨k, e, below', -, -, rfl⟩ := mem_addressesFrom.mp hb
        exact .inl (by omega)

theorem sorted_addresses (outcome : Outcome) : outcome.addresses.Pairwise Address.Before := by
  induction outcome using Outcome.induction with
  | step outcome ih =>
    rw [addresses_eq, List.pairwise_append]
    refine ⟨sorted_addressesFrom ih 0, List.pairwise_singleton _ _, ?_⟩
    intro a ha b hb
    obtain ⟨k, e, below, -, -, rfl⟩ := mem_addressesFrom.mp ha
    rw [List.mem_singleton.mp hb]
    trivial

theorem postorder_addresses (outcome : Outcome) : outcome.Postorder outcome.addresses :=
  ⟨mem_addresses_iff outcome, sorted_addresses outcome⟩

/-! ## The listed nodes -/

/-- The items of a tree from some index on are surveyed to their verdict and their nodes, if each of them is. -/
theorem surveyEntries_eq {outcome : Outcome} (before : List (Segment × Outcome))
    {entries : List (Segment × Outcome)} {path : String} (houtcome : outcome.entries = before ++ entries)
    (h : ∀ e ∈ entries, ∀ path, survey path e.2 = (e.2.isOk, e.2.addresses.filterMap (e.2.nodeAt? path))) :
    surveyEntries path entries =
      (allOk entries, (addressesFrom before.length entries).filterMap (outcome.nodeAt? path)) := by
  induction entries generalizing before with
  | nil => rfl
  | cons first rest ih =>
      have hrest := ih (before ++ [first]) (by simp [houtcome]) fun e he => h e (List.mem_cons_of_mem _ he)
      have hat : outcome.entries[before.length]? = some first := by simp [houtcome]
      have hfirst : ((first.2.addresses.map (before.length :: ·)).filterMap (outcome.nodeAt? path)) =
          first.2.addresses.filterMap (first.2.nodeAt? (childPath path first.1)) := by
        rw [List.filterMap_map]
        refine List.filterMap_congr fun below _ => ?_
        simp [nodeAt?, hat]
      obtain ⟨segment, item⟩ := first
      rw [surveyEntries, h (segment, item) List.mem_cons_self, hrest, addressesFrom, List.filterMap_append, hfirst,
        allOk, List.length_append, List.length_singleton]

/-- The survey of a tree finds its verdict and the nodes at all addresses. -/
theorem survey_eq (outcome : Outcome) (path : String) :
    survey path outcome = (outcome.isOk, outcome.addresses.filterMap (outcome.nodeAt? path)) := by
  induction outcome using Outcome.induction generalizing path with
  | step outcome ih =>
    cases outcome with
    | passed warning => rfl
    | failed expected actual warning => rfl
    | items entries warning =>
        have hentries : (items entries warning).entries = [] ++ entries := rfl
        have hbelow : surveyEntries path entries = _ := surveyEntries_eq [] hentries ih
        rw [survey, hbelow, addresses, List.filterMap_append, isOk]
        simp [nodeAt?, isOk]

/-- **The listed nodes** are those at the addresses of the tree, each with its path and its verdict. -/
theorem nodes_eq (outcome : Outcome) (path : String) :
    outcome.nodes path = outcome.addresses.filterMap (outcome.nodeAt? path) := by
  rw [nodes, survey_eq]

/-- The verdict of a node is that of the tree below it. -/
theorem ok_of_nodeAt {outcome : Outcome} {path : String} {address : Address} {node : Node}
    (h : outcome.nodeAt? path address = some node) : node.ok = node.outcome.isOk := by
  induction address generalizing outcome path with
  | nil =>
      obtain rfl := Option.some.inj h
      rfl
  | cons i below ih =>
      obtain ⟨e, -, he⟩ := Option.bind_eq_some_iff.mp h
      exact ih he

/-- There is a listed node for each address, and they come in the order of the addresses. -/
theorem forall₂_nodes (outcome : Outcome) (path : String) :
    List.Forall₂ (fun address node => outcome.nodeAt? path address = some node) outcome.addresses
      (outcome.nodes path) := by
  have hat : ∀ address ∈ outcome.addresses, (outcome.nodeAt? path address).isSome :=
    fun address => (outcome.mem_addresses_iff path address).mp
  rw [nodes_eq]
  generalize outcome.addresses = addresses at hat
  induction addresses with
  | nil => exact .nil
  | cons address rest ih =>
      obtain ⟨node, hnode⟩ := Option.isSome_iff_exists.mp (hat address List.mem_cons_self)
      rw [List.filterMap_cons_some hnode]
      exact .cons hnode (ih fun a ha => hat a (List.mem_cons_of_mem address ha))

theorem getLast?_nodes (outcome : Outcome) (path : String) :
    (outcome.nodes path).getLast? = some ⟨path, outcome.isOk, outcome⟩ := by
  have hroot : [[]].filterMap (outcome.nodeAt? path) = [⟨path, outcome.isOk, outcome⟩] := rfl
  rw [nodes_eq, addresses_eq, List.filterMap_append, hroot, List.getLast?_concat]

/-- **The list of nodes agrees with the tree.** From any path, every node of the tree is listed once, behind all its
    descendants and with the items of a container in order, and the root comes last. The verdict of a node, which is
    found on the way from the verdicts of its items, is the verdict of the tree that stands there. -/
theorem nodes_postorder (outcome : Outcome) (path : String) :
    (∃ addresses, outcome.Postorder addresses ∧
      List.Forall₂ (fun address node => outcome.nodeAt? path address = some node) addresses (outcome.nodes path)) ∧
    (outcome.nodes path).getLast? = some ⟨path, outcome.isOk, outcome⟩ ∧
    ∀ node ∈ outcome.nodes path, node.ok = node.outcome.isOk := by
  refine ⟨⟨outcome.addresses, outcome.postorder_addresses, outcome.forall₂_nodes path⟩,
    outcome.getLast?_nodes path, fun node hnode => ?_⟩
  rw [nodes_eq] at hnode
  obtain ⟨address, -, hat⟩ := List.mem_filterMap.mp hnode
  exact ok_of_nodeAt hat

/-- The failure of one item does not reach the items beside it, also if they stand under one segment. -/
example :
    let server := collection [(.key "port", mismatch "int" .null), (.key "host", pass)]
    ((collection [(.key "a", server), (.key "a", pass)]).nodes "c").map (fun node => (node.path, node.ok)) =
      [("c.a.port", false), ("c.a.host", true), ("c.a", false), ("c.a", true), ("c", false)] := by
  decide

end Outcome

end ConfigSchema
