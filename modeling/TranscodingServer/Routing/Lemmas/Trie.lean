import TranscodingServer.Routing.Trie

/-!
# The tree as a table of patterns

A node stands for the patterns that lead from it to a rule.  `find` chooses among them, compressing
keeps them, and `add` adds one.
-/

namespace TranscodingServer

open Patterns

namespace Node

/-- What is read on the way from the parent to the node. -/
def label (node : Node) : Pattern UInt8 ParamType :=
  match node.param with
  | some type => [.param type]
  | none => node.key.map .item

mutual
def entries : Node → Table UInt8 ParamType Nat
  | ⟨rule_index, _, _, children⟩ =>
    (if rule_index = 0 then [] else [([], rule_index)]) ++ entriesOf children

def entriesOf : List Node → Table UInt8 ParamType Nat
  | [] => []
  | child :: rest => under child.label (entries child) ++ entriesOf rest
end

/-- What the parent sees of a node. -/
def rows (node : Node) : Table UInt8 ParamType Nat := under node.label node.entries

theorem entriesOf_cons (child : Node) (rest : List Node) :
    entriesOf (child :: rest) = child.rows ++ entriesOf rest := by
  rw [entriesOf, rows]

theorem entriesOf_eq (children : List Node) : entriesOf children = children.flatMap rows := by
  induction children with
  | nil => rfl
  | cons child rest ih => rw [entriesOf_cons, ih, List.flatMap_cons]

/-- No child is reached for nothing. -/
inductive Keyed : Node → Prop
  | mk {node : Node} (label : ∀ child ∈ node.children, child.label ≠ [])
      (keyed : ∀ child ∈ node.children, child.Keyed) : node.Keyed

/-! ## Searching -/

section Find

variable {δ : Type} {strtod : Str → Option (δ × Nat)}

theorem take_nil (type : ParamType) : type.take strtod [] = none := by
  cases type <;> rfl

/-- A result of `find`, `none` for the rule index 0. -/
def foundRule (found : Nat × RoutingParams δ) : Option (Nat × RoutingParams δ) :=
  if found.1 = 0 then none else some found

theorem foundRule_update_found (found ret : Nat × RoutingParams δ) :
    foundRule (update_found found ret) = better (foundRule found) (foundRule ret) := by
  rw [update_found]
  by_cases hret : ret.1 = 0
  · simp [foundRule, hret]
  · by_cases hfound : found.1 = 0
    · simp [foundRule, hret, hfound, better]
    · by_cases hlt : ret.1 < found.1
      · simp [foundRule, hret, hfound, better, hlt]
      · simp [foundRule, hret, hfound, better, hlt]

/-- A choice in a table, with its arguments behind `params`. -/
def withParams (params : RoutingParams δ) (x : Nat × List (Arg δ)) : Nat × RoutingParams δ :=
  (x.1, x.2.foldl .push params)

theorem better_map {α γ : Type} (f : Nat × α → Nat × γ) (hf : ∀ x, (f x).1 = x.1)
    (a b : Option (Nat × α)) : (better a b).map f = better (a.map f) (b.map f) := by
  cases a with
  | none => rfl
  | some a =>
      cases b with
      | none => rfl
      | some b =>
          simp only [better, Option.map_some, hf]
          split <;> rfl

theorem choose_under_label (child : Node) (url : Str) :
    choose (ParamType.take strtod) (under child.label child.entries) url =
      match child.param with
      | some type => (type.take strtod url).bind fun x =>
          (choose (ParamType.take strtod) child.entries x.2).map (Prod.map id (x.1 :: ·))
      | none =>
          if child.key.isPrefixOf url then
            choose (ParamType.take strtod) child.entries (url.drop child.key.length)
          else none := by
  rw [label]
  cases child.param with
  | some type => exact choose_under_param ..
  | none => exact choose_under_items ..

theorem choose_entriesOf_nil {children : List Node} (h : ∀ child ∈ children, child.label ≠ []) :
    choose (ParamType.take strtod) (entriesOf children) [] = none := by
  induction children with
  | nil => rfl
  | cons child rest ih =>
      rw [entriesOf, choose_append, ih fun x hx => h x (by simp [hx]), better_none,
        choose_under_label]
      have hlabel := h child (by simp)
      rw [label] at hlabel
      cases hparam : child.param with
      | some type => simp [take_nil]
      | none =>
          rw [hparam] at hlabel
          rw [if_neg]
          simpa using hlabel

mutual
theorem foundRule_find (node : Node) (h : node.Keyed) (url : Str) (params : RoutingParams δ) :
    foundRule (find strtod node url params) =
      (choose (ParamType.take strtod) node.entries url).map (withParams params) := by
  obtain ⟨rule_index, key, param, children⟩ := node
  obtain ⟨hlabel, hkeyed⟩ := h
  cases url with
  | nil =>
      rw [find, entries, choose_append, choose_entriesOf_nil hlabel, better_none]
      by_cases hz : rule_index = 0
      · simp [foundRule, hz]
      · simp [foundRule, hz, choose, matching, Patterns.read, withParams]
  | cons c url =>
      have hown : choose (ParamType.take strtod)
          (if rule_index = 0 then [] else [([], rule_index)]) (c :: url) = none := by
        by_cases hz : rule_index = 0
        · simp [hz]
        · simp [hz, choose, matching, Patterns.read]
      rw [find, foundRule_findIn children hkeyed (c :: url), entries, choose_append, hown]
      rfl

theorem foundRule_findIn (children : List Node) (h : ∀ child ∈ children, child.Keyed) (url : Str)
    (params : RoutingParams δ) (found : Nat × RoutingParams δ) :
    foundRule (findIn strtod children url params found) = better (foundRule found)
      ((choose (ParamType.take strtod) (entriesOf children) url).map (withParams params)) := by
  match children with
  | [] => simp [findIn, entriesOf]
  | child :: rest =>
      have hchild := foundRule_find child (h child (by simp))
      rw [findIn, foundRule_findIn rest fun x hx => h x (by simp [hx]), entriesOf, choose_append,
        better_map (withParams params) fun _ => rfl, ← better_assoc, choose_under_label]
      congr 1
      cases child.param with
      | some type =>
          cases htake : type.take strtod url with
          | none => simp [htake]
          | some x =>
              simp only [htake, foundRule_update_found, hchild, Option.bind_some, Option.map_map]
              rfl
      | none =>
          by_cases hpre : child.key.isPrefixOf url
          · simp only [hpre, if_true, foundRule_update_found, hchild]
          · simp [hpre]
end

end Find

/-! ## Compressing -/

theorem isSimpleNode_cons {rule_index : Nat} {key : Str} {param : Option ParamType} {child : Node}
    {rest : List Node} (h : IsSimpleNode ⟨rule_index, key, param, child :: rest⟩ = true) :
    rule_index = 0 ∧ rest = [] ∧ param = none ∧ child.param = none := by
  simp only [IsSimpleNode, Bool.and_eq_true, decide_eq_true_eq, List.length_cons,
    Option.isNone_iff_eq_none, List.all_cons] at h
  obtain ⟨⟨⟨hrule, hlen⟩, hparam⟩, hchild, -⟩ := h
  exact ⟨hrule, List.length_eq_zero_iff.mp (by omega), hparam, hchild⟩

theorem optimizeBehind_param (key : Str) (node : Node) :
    (optimizeBehind key node).param = node.param := by
  match node with
  | ⟨_, _, _, []⟩ => rw [optimizeBehind]
  | ⟨_, own, _, child :: _⟩ =>
      rw [optimizeBehind]
      split
      · rename_i hsimple
        obtain ⟨-, -, hparam, hchild⟩ := isSimpleNode_cons hsimple
        rw [optimizeBehind_param (key ++ own) child, hchild, ← hparam]
      · rfl

mutual
/-- The merged node stands for what the nodes stood for, read behind the key. -/
theorem rows_optimizeBehind (key : Str) (node : Node) (h : key = [] ∨ node.param = none) :
    (optimizeBehind key node).rows = under (key.map .item) node.rows := by
  match node with
  | ⟨rule_index, own, param, children⟩ =>
      have hlabel (l l' : List Node) : label ⟨rule_index, key ++ own, param, l⟩ =
          key.map .item ++ label ⟨rule_index, own, param, l'⟩ := by
        cases h with
        | inl hkey => simp [label, hkey]
        | inr hparam => simp [label, show param = none from hparam]
      match children with
      | [] => rw [optimizeBehind, rows, hlabel [] [], ← under_under]; rfl
      | child :: rest =>
          rw [optimizeBehind]
          split
          · rename_i hsimple
            obtain ⟨hrule, hrest, hparam, hchild⟩ := isSimpleNode_cons hsimple
            rw [rows_optimizeBehind (key ++ own) child (.inr hchild)]
            simp [rows, label, entries, entriesOf, hrule, hrest, hparam]
          · rw [rows, hlabel _ (child :: rest), ← under_under, entries,
              entriesOf_optimizeAll (child :: rest)]
            rfl

theorem entriesOf_optimizeAll (children : List Node) :
    entriesOf (optimizeAll children) = entriesOf children := by
  match children with
  | [] => rfl
  | child :: rest =>
      rw [optimizeAll, entriesOf_cons, entriesOf_cons, rows_optimizeBehind [] child (.inl rfl),
        entriesOf_optimizeAll rest]
      simp
end

theorem optimizeAll_eq (children : List Node) : optimizeAll children = children.map optimizeNode := by
  induction children with
  | nil => rfl
  | cons child rest ih => rw [optimizeAll, ih, List.map_cons, optimizeNode]

theorem optimizeBehind_key (key : Str) (node : Node) :
    key ++ node.key <+: (optimizeBehind key node).key := by
  match node with
  | ⟨_, _, _, []⟩ => rw [optimizeBehind]
  | ⟨_, own, _, child :: _⟩ =>
      rw [optimizeBehind]
      split
      · exact (List.prefix_append _ _).trans (optimizeBehind_key (key ++ own) child)
      · exact List.prefix_rfl

theorem label_ne_nil_iff {node : Node} :
    node.label ≠ [] ↔ (node.param = none → node.key ≠ []) := by
  rw [label]
  cases node.param <;> simp

theorem optimizeNode_label {node : Node} (h : node.label ≠ []) : (optimizeNode node).label ≠ [] := by
  rw [label_ne_nil_iff] at h
  rw [label_ne_nil_iff, optimizeNode, optimizeBehind_param]
  intro hparam hkey
  have hpre := optimizeBehind_key [] node
  rw [hkey, List.nil_append, List.prefix_nil] at hpre
  exact h hparam hpre

mutual
theorem keyed_optimizeBehind (key : Str) (node : Node) (h : node.Keyed) :
    (optimizeBehind key node).Keyed := by
  match node with
  | ⟨_, _, _, []⟩ =>
      rw [optimizeBehind]
      exact .mk (by simp) (by simp)
  | ⟨_, own, _, child :: rest⟩ =>
      obtain ⟨hlabel, hkeyed⟩ := h
      rw [optimizeBehind]
      split
      · exact keyed_optimizeBehind (key ++ own) child (hkeyed child (by simp))
      · refine .mk ?_ (keyed_optimizeAll (child :: rest) hkeyed)
        rw [optimizeAll_eq]
        intro x hx
        obtain ⟨y, hy, rfl⟩ := List.mem_map.mp hx
        exact optimizeNode_label (hlabel y hy)

theorem keyed_optimizeAll (children : List Node) (h : ∀ child ∈ children, child.Keyed) :
    ∀ child ∈ optimizeAll children, child.Keyed := by
  match children with
  | [] => simp [optimizeAll]
  | child :: rest =>
      rw [optimizeAll, List.forall_mem_cons]
      exact ⟨keyed_optimizeBehind [] child (h child (by simp)),
        keyed_optimizeAll rest fun x hx => h x (by simp [hx])⟩
end

/-! ## Adding -/

/-- A node of the tree before it is compressed: one child for a piece. -/
inductive Plain : Node → Prop
  | mk {node : Node} (nodup : (node.children.map label).Nodup)
      (single : ∀ child ∈ node.children, ∃ piece, piece ≠ .item 0 ∧ child.label = [piece] ∧
        (child.param = none ∨ child.key = []))
      (plain : ∀ child ∈ node.children, child.Plain) : node.Plain

theorem Plain.keyed {node : Node} (h : node.Plain) : node.Keyed := by
  induction h with
  | mk _ single _ ih =>
      refine .mk (fun child hmem => ?_) ih
      obtain ⟨piece, -, hlabel, -⟩ := single child hmem
      rw [hlabel]
      simp

theorem plain_newNode (piece : Piece UInt8 ParamType) : (newNode piece).Plain := by
  cases piece <;> exact .mk (by simp [newNode]) (by simp [newNode]) (by simp [newNode])

@[simp] theorem label_newNode (piece : Piece UInt8 ParamType) : (newNode piece).label = [piece] := by
  cases piece <;> rfl

@[simp] theorem entries_newNode (piece : Piece UInt8 ParamType) : (newNode piece).entries = [] := by
  cases piece <;> rfl

@[simp] theorem rows_newNode (piece : Piece UInt8 ParamType) : (newNode piece).rows = [] := by
  simp [rows]

theorem leadsTo_iff {piece p : Piece UInt8 ParamType} {child : Node} (hpiece : piece ≠ .item 0)
    (hlabel : child.label = [p]) (hkey : child.param = none ∨ child.key = []) :
    leadsTo piece child = true ↔ child.label = [piece] := by
  rw [label] at hlabel ⊢
  cases hparam : child.param with
  | some type =>
      have hempty : child.key = [] := by simpa [hparam] using hkey
      cases piece with
      | param type' => simp [leadsTo, hparam]
      | item c =>
          have hc : (0 : UInt8) ≠ c := fun h => hpiece (by rw [h])
          simp [leadsTo, hempty, hc]
  | none =>
      rw [hparam] at hlabel
      obtain ⟨c, hkey, -⟩ := List.map_eq_singleton_iff.mp hlabel
      cases piece <;> simp [leadsTo, hparam, hkey]

theorem descend_cases (p : Node → Bool) (new_node : Node) (f : Node → Except StartFault Node)
    (children : List Node) :
    (∃ pre child post, children = pre ++ child :: post ∧ p child = true ∧
      descend p new_node f children = (f child).map fun x => pre ++ x :: post) ∨
    (∀ child ∈ children, p child = false) ∧
      descend p new_node f children = (f new_node).map fun x => children ++ [x] := by
  induction children with
  | nil =>
      right
      rw [descend]
      cases f new_node <;> simp [Except.map, bind, Except.bind, pure, Except.pure]
  | cons child rest ih =>
      rw [descend]
      by_cases hp : p child = true
      · left
        refine ⟨[], child, rest, rfl, hp, ?_⟩
        rw [if_pos hp]
        cases f child <;> rfl
      · rw [if_neg hp]
        cases ih with
        | inl hfound =>
            left
            obtain ⟨pre, x, post, rfl, hx, heq⟩ := hfound
            refine ⟨child :: pre, x, post, rfl, hx, ?_⟩
            rw [heq]
            cases f x <;> rfl
        | inr hnone =>
            right
            obtain ⟨hall, heq⟩ := hnone
            refine ⟨List.forall_mem_cons.mpr ⟨by simpa using hp, hall⟩, ?_⟩
            rw [heq]
            cases f new_node <;> rfl

/-- `add` goes on at the child of the next piece, or at a new one. -/
theorem addPieces_cons {node : Node} (h : node.Plain) {piece : Piece UInt8 ParamType}
    (hpiece : piece ≠ .item 0) (url : Str) (rule_index : Nat) (ps : Pattern UInt8 ParamType) :
    (∃ pre child post, node.children = pre ++ child :: post ∧ child.label = [piece] ∧
      addPieces url rule_index (piece :: ps) node =
        (addPieces url rule_index ps child).map fun x =>
          { node with children := pre ++ x :: post }) ∨
    (∀ child ∈ node.children, child.label ≠ [piece]) ∧
      addPieces url rule_index (piece :: ps) node =
        (addPieces url rule_index ps (newNode piece)).map fun x =>
          { node with children := node.children ++ [x] } := by
  obtain ⟨-, single, -⟩ := h
  have hleads (child : Node) (hmem : child ∈ node.children) :
      leadsTo piece child = true ↔ child.label = [piece] := by
    obtain ⟨p, -, hlabel, hkey⟩ := single child hmem
    exact leadsTo_iff hpiece hlabel hkey
  rw [addPieces]
  cases descend_cases (leadsTo piece) (newNode piece) (addPieces url rule_index ps)
    node.children with
  | inl hfound =>
      left
      obtain ⟨pre, child, post, hsplit, hp, heq⟩ := hfound
      refine ⟨pre, child, post, hsplit, (hleads child (by simp [hsplit])).mp hp, ?_⟩
      rw [heq]
      cases addPieces url rule_index ps child <;> rfl
  | inr hnone =>
      right
      obtain ⟨hall, heq⟩ := hnone
      refine ⟨fun child hmem hlabel => ?_, ?_⟩
      · rw [← hleads child hmem, hall child hmem] at hlabel
        cases hlabel
      · rw [heq]
        cases addPieces url rule_index ps (newNode piece) <;> rfl

theorem entries_eq (node : Node) :
    node.entries = (if node.rule_index = 0 then [] else [([], node.rule_index)]) ++
      node.children.flatMap rows := by
  obtain ⟨rule_index, key, param, children⟩ := node
  rw [entries, entriesOf_eq]

theorem cons_mem_entries {node : Node} (h : node.Plain) {piece : Piece UInt8 ParamType}
    {ps : Pattern UInt8 ParamType} {j : Nat} :
    (piece :: ps, j) ∈ node.entries ↔
      ∃ child ∈ node.children, child.label = [piece] ∧ (ps, j) ∈ child.entries := by
  obtain ⟨-, single, -⟩ := h
  have hown : (piece :: ps, j) ∉
      if node.rule_index = 0 then [] else [(([] : Pattern UInt8 ParamType), node.rule_index)] := by
    split <;> simp
  rw [entries_eq, List.mem_append, or_iff_right hown, List.mem_flatMap]
  constructor
  · intro hex
    obtain ⟨child, hmem, hrow⟩ := hex
    obtain ⟨q, hq, heq⟩ := mem_under.mp hrow
    obtain ⟨p, -, hlabel, -⟩ := single child hmem
    rw [hlabel] at heq
    cases heq
    exact ⟨child, hmem, hlabel, hq⟩
  · intro hex
    obtain ⟨child, hmem, hlabel, hq⟩ := hex
    exact ⟨child, hmem, mem_under.mpr ⟨ps, hq, by rw [hlabel]; rfl⟩⟩

/-- What `add` makes of a node. -/
def Added (url : Str) (ps : Pattern UInt8 ParamType) (rule_index : Nat) (node : Node) :
    Except StartFault Node → Prop
  | .error e => e = .thrown (.runtime_error (str "handler already exists for " ++ url)) ∧
      ∃ j, (ps, j) ∈ node.entries
  | .ok node' => (∀ j, (ps, j) ∉ node.entries) ∧ node'.Plain ∧ node'.key = node.key ∧
      node'.param = node.param ∧ node'.entries.Perm ((ps, rule_index) :: node.entries)

theorem rows_perm {x child : Node} {piece : Piece UInt8 ParamType} {ps : Pattern UInt8 ParamType}
    {rule_index : Nat} (hx : x.label = [piece]) (hchild : child.label = [piece])
    (h : x.entries.Perm ((ps, rule_index) :: child.entries)) :
    x.rows.Perm ((piece :: ps, rule_index) :: child.rows) := by
  rw [rows, rows, hx, hchild]
  exact h.map fun row => ([piece] ++ row.1, row.2)

theorem nil_not_mem_entries {node : Node} (h : node.Keyed) (hrule : node.rule_index = 0) (j : Nat) :
    ([], j) ∉ node.entries := by
  obtain ⟨hlabel, -⟩ := h
  intro hmem
  rw [entries_eq, if_pos hrule, List.nil_append, List.mem_flatMap] at hmem
  obtain ⟨child, hchild, hrow⟩ := hmem
  obtain ⟨q, -, heq⟩ := mem_under.mp hrow
  exact hlabel child hchild (List.append_eq_nil_iff.mp heq.symm).1

theorem added_nil (url : Str) {rule_index : Nat} (hrule : rule_index ≠ 0) {node : Node}
    (h : node.Plain) : Added url [] rule_index node (addPieces url rule_index [] node) := by
  rw [addPieces]
  by_cases hown : node.rule_index = 0
  · rw [if_neg (by simp [hown])]
    refine ⟨nil_not_mem_entries h.keyed hown, ?_, rfl, rfl, ?_⟩
    · obtain ⟨nodup, single, plain⟩ := h
      exact .mk nodup single plain
    · rw [entries_eq, entries_eq node, if_neg hrule, if_pos hown]
      exact .refl _
  · rw [if_pos hown]
    refine ⟨rfl, node.rule_index, ?_⟩
    rw [entries_eq, if_neg hown]
    simp

theorem added_found {url : Str} {piece : Piece UInt8 ParamType} {ps : Pattern UInt8 ParamType}
    {rule_index : Nat} {node child : Node} {pre post : List Node} {r : Except StartFault Node}
    (h : node.Plain) (hsplit : node.children = pre ++ child :: post)
    (hlabel : child.label = [piece]) (hr : Added url ps rule_index child r) :
    Added url (piece :: ps) rule_index node
      (r.map fun x => { node with children := pre ++ x :: post }) := by
  have hmem : child ∈ node.children := by simp [hsplit]
  have hiff (j : Nat) : (piece :: ps, j) ∈ node.entries ↔ (ps, j) ∈ child.entries := by
    rw [cons_mem_entries h]
    constructor
    · intro hex
      obtain ⟨y, hy, hylabel, hj⟩ := hex
      obtain ⟨nodup, -, -⟩ := h
      rwa [← List.inj_on_of_nodup_map nodup hy hmem (hylabel.trans hlabel.symm)]
    · intro hj
      exact ⟨child, hmem, hlabel, hj⟩
  cases r with
  | error e =>
      obtain ⟨he, j, hj⟩ := hr
      exact ⟨he, j, (hiff j).mpr hj⟩
  | ok x =>
      obtain ⟨hfresh, hplain, hkey, hparam, hperm⟩ := hr
      have hx : x.label = child.label := by rw [label, label, hkey, hparam]
      obtain ⟨nodup, single, plain⟩ := h
      refine ⟨fun j => mt (hiff j).mp (hfresh j), ?_, rfl, rfl, ?_⟩
      · rw [hsplit] at nodup single plain
        refine .mk ?_ ?_ ?_
        · simpa [hx] using nodup
        · simp only [List.forall_mem_append, List.forall_mem_cons] at single ⊢
          rw [hx, hkey, hparam]
          exact single
        · simp only [List.forall_mem_append, List.forall_mem_cons] at plain ⊢
          exact ⟨plain.1, hplain, plain.2.2⟩
      · have hrows := rows_perm (hx.trans hlabel) hlabel hperm
        rw [entries_eq, entries_eq node, hsplit]
        simp only [List.flatMap_append, List.flatMap_cons, ← List.append_assoc]
        refine (((hrows.append_left _).trans List.perm_middle).append_right _)

theorem added_new {url : Str} {piece : Piece UInt8 ParamType} {ps : Pattern UInt8 ParamType}
    {rule_index : Nat} {node : Node} {r : Except StartFault Node} (h : node.Plain)
    (hpiece : piece ≠ .item 0) (hall : ∀ child ∈ node.children, child.label ≠ [piece])
    (hr : Added url ps rule_index (newNode piece) r) :
    Added url (piece :: ps) rule_index node
      (r.map fun x => { node with children := node.children ++ [x] }) := by
  cases r with
  | error e =>
      obtain ⟨-, j, hj⟩ := hr
      simp at hj
  | ok x =>
      obtain ⟨-, hplain, hkey, hparam, hperm⟩ := hr
      have hx : x.label = [piece] := by
        rw [← label_newNode piece, label, label, hkey, hparam]
      refine ⟨fun j hmem => ?_, ?_, rfl, rfl, ?_⟩
      · obtain ⟨child, hchild, hlabel, -⟩ := (cons_mem_entries h).mp hmem
        exact hall child hchild hlabel
      · obtain ⟨nodup, single, plain⟩ := h
        refine .mk ?_ ?_ ?_
        · rw [List.map_append, List.nodup_append]
          refine ⟨nodup, List.nodup_singleton _, fun l hl m hm heq => ?_⟩
          obtain ⟨child, hchild, rfl⟩ := List.mem_map.mp hl
          rw [List.map_singleton, List.mem_singleton, hx] at hm
          exact hall child hchild (heq.trans hm)
        · simp only [List.forall_mem_append, List.forall_mem_singleton]
          refine ⟨single, piece, hpiece, hx, ?_⟩
          rw [hkey, hparam]
          cases piece <;> simp [newNode]
        · simp only [List.forall_mem_append, List.forall_mem_singleton]
          exact ⟨plain, hplain⟩
      · have hrows := rows_perm hx (label_newNode piece) hperm
        rw [rows_newNode] at hrows
        rw [entries_eq, entries_eq node]
        simp only [List.flatMap_append, List.flatMap_singleton, ← List.append_assoc]
        exact (hrows.append_left _).trans List.perm_append_comm

theorem addPieces_spec (url : Str) {rule_index : Nat} (hrule : rule_index ≠ 0)
    {ps : Pattern UInt8 ParamType} (hps : .item 0 ∉ ps) {node : Node} (h : node.Plain) :
    Added url ps rule_index node (addPieces url rule_index ps node) := by
  induction ps generalizing node with
  | nil => exact added_nil url hrule h
  | cons piece ps ih =>
      have hpiece : piece ≠ .item 0 := fun heq => hps (by simp [heq])
      have hps' : .item 0 ∉ ps := fun hmem => hps (by simp [hmem])
      cases addPieces_cons h hpiece url rule_index ps with
      | inl hfound =>
          obtain ⟨pre, child, post, hsplit, hlabel, heq⟩ := hfound
          rw [heq]
          have hplain : child.Plain := by
            obtain ⟨-, -, plain⟩ := h
            exact plain child (by simp [hsplit])
          exact added_found h hsplit hlabel (ih hps' hplain)
      | inr hnone =>
          obtain ⟨hall, heq⟩ := hnone
          rw [heq]
          exact added_new h hpiece hall (ih hps' (plain_newNode piece))

/-- Only a child for the first piece is new. -/
theorem addPieces_labels {url : Str} {rule_index : Nat} {piece : Piece UInt8 ParamType}
    {ps : Pattern UInt8 ParamType} {node node' : Node} (h : node.Plain) (hpiece : piece ≠ .item 0)
    (hps : .item 0 ∉ ps) (hrule : rule_index ≠ 0)
    (hadd : addPieces url rule_index (piece :: ps) node = .ok node') :
    node'.rule_index = node.rule_index ∧
      ∀ child ∈ node'.children,
        child.label = [piece] ∨ ∃ y ∈ node.children, child.label = y.label := by
  have hx {child x : Node} (hchild : child.Plain) (hlabel : child.label = [piece])
      (heq : addPieces url rule_index ps child = .ok x) : x.label = [piece] := by
    have hspec := addPieces_spec url hrule hps hchild
    rw [heq] at hspec
    obtain ⟨-, -, hkey, hparam, -⟩ := hspec
    rw [← hlabel, label, label, hkey, hparam]
  cases addPieces_cons h hpiece url rule_index ps with
  | inl hfound =>
      obtain ⟨pre, child, post, hsplit, hlabel, heq⟩ := hfound
      obtain ⟨-, -, plain⟩ := h
      rw [heq] at hadd
      cases hr : addPieces url rule_index ps child with
      | error e =>
          rw [hr] at hadd
          cases hadd
      | ok x =>
          rw [hr] at hadd
          cases hadd
          refine ⟨rfl, fun y hy => ?_⟩
          simp only [List.mem_append, List.mem_cons] at hy
          rcases hy with hy | rfl | hy
          · exact .inr ⟨y, by simp [hsplit, hy], rfl⟩
          · exact .inl (hx (plain child (by simp [hsplit])) hlabel hr)
          · exact .inr ⟨y, by simp [hsplit, hy], rfl⟩
  | inr hnone =>
      obtain ⟨-, heq⟩ := hnone
      rw [heq] at hadd
      cases hr : addPieces url rule_index ps (newNode piece) with
      | error e =>
          rw [hr] at hadd
          cases hadd
      | ok x =>
          rw [hr] at hadd
          cases hadd
          refine ⟨rfl, fun y hy => ?_⟩
          simp only [List.mem_append, List.mem_singleton] at hy
          cases hy with
          | inl hy => exact .inr ⟨y, hy, rfl⟩
          | inr hy => exact .inl (hy ▸ hx (plain_newNode piece) (label_newNode piece) hr)

end Node

end TranscodingServer
