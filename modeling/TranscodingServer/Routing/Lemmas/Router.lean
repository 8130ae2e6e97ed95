import TranscodingServer.Routing.Lemmas.Trie
import TranscodingServer.Routing.Rules

/-!
# The tries of the router hold the rules
-/

namespace TranscodingServer

open Patterns

/-! ## Urls -/

theorem urlPieces_slash (url : Str) :
    urlPieces ('/'.toUInt8 :: url) = (urlPieces url).map (.item '/'.toUInt8 :: ·) := by
  rw [urlPieces, urlPiecesFrom, if_neg (by decide)]
  rfl

theorem item_mem_urlPieces {skip : Nat} {url : Str} {ps : Pattern UInt8 ParamType} {c : UInt8}
    (h : urlPiecesFrom skip url = some ps) (hc : .item c ∈ ps) : c ∈ url := by
  fun_induction urlPiecesFrom skip url generalizing ps with
  | case1 => simp_all
  | case2 skip d url ih => exact List.mem_cons_of_mem _ (ih h hc)
  | case3 url x hx ih =>
      obtain ⟨ps', hps', rfl⟩ := Option.map_eq_some_iff.mp h
      rw [List.mem_cons, or_iff_right (by simp)] at hc
      exact List.mem_cons_of_mem _ (ih hps' hc)
  | case4 => cases h
  | case5 d url hd ih =>
      obtain ⟨ps', hps', rfl⟩ := Option.map_eq_some_iff.mp h
      cases List.mem_cons.mp hc with
      | inl heq =>
          cases heq
          simp
      | inr hmem => exact List.mem_cons_of_mem _ (ih hps' hmem)

/-! ## The head of a trie -/

namespace Trie

/-- The head of a trie to which rules are still added. -/
structure Open (head : Node) : Prop where
  plain : head.Plain
  rule_index : head.rule_index = 0
  param : head.param = none
  slash : ∀ child ∈ head.children, child.label = [.item '/'.toUInt8]
  used : head.children ≠ [] → head.entries ≠ []

theorem Open.new : Open {} where
  plain := .mk (by simp) (by simp) (by simp)
  rule_index := rfl
  param := rfl
  slash := by simp
  used := by simp

/-- The outcome of `add` for a url that starts with a slash. -/
theorem add_spec {head : Node} (h : Open head) {url : Str} (hslash : url.head? = some '/'.toUInt8)
    (hnul : 0 ∉ url) {rule_index : Nat} (hrule : rule_index ≠ 0) :
    (∃ ps head', urlPieces url = some ps ∧ ps ∉ head.entries.map Prod.fst ∧
      add url rule_index head = .ok head' ∧ Open head' ∧
      head'.entries.Perm ((ps, rule_index) :: head.entries)) ∨
    (∀ ps, urlPieces url = some ps → ps ∈ head.entries.map Prod.fst) ∧
      ∃ e, add url rule_index head = .error e := by
  cases hps : urlPieces url with
  | none =>
      right
      exact ⟨by simp, .endless, by simp [add, hps]⟩
  | some ps =>
      have hzero : .item 0 ∉ ps := fun hmem => hnul (item_mem_urlPieces hps hmem)
      have hadd : add url rule_index head = head.addPieces url rule_index ps := by rw [add, hps]
      have hspec := Node.addPieces_spec url hrule hzero h.plain
      rw [← hadd] at hspec
      have hmem : ps ∈ head.entries.map Prod.fst ↔ ∃ j, (ps, j) ∈ head.entries := by simp
      cases hr : add url rule_index head with
      | error e =>
          rw [hr] at hspec
          right
          exact ⟨by simpa using hspec.2, e, rfl⟩
      | ok head' =>
          rw [hr] at hspec hadd
          obtain ⟨hfresh, hplain, -, hparam, hperm⟩ := hspec
          left
          refine ⟨ps, head', rfl, by simpa [hmem] using hfresh, rfl, ?_, hperm⟩
          cases url with
          | nil => cases hslash
          | cons c url =>
              cases hslash
              rw [urlPieces_slash] at hps
              obtain ⟨ps', -, rfl⟩ := Option.map_eq_some_iff.mp hps
              obtain ⟨hrule', hlabels⟩ := Node.addPieces_labels h.plain (by decide)
                (fun hmem' => hzero (by simp [hmem'])) hrule hadd.symm
              refine ⟨hplain, hrule'.trans h.rule_index, hparam.trans h.param, fun child hchild => ?_,
                fun _ hnil => by simp [hnil] at hperm⟩
              cases hlabels child hchild with
              | inl hlabel => exact hlabel
              | inr hold =>
                  obtain ⟨y, hy, hlabel⟩ := hold
                  exact hlabel.trans (h.slash y hy)

theorem Open.isSimpleNode {head : Node} (h : Open head) : head.IsSimpleNode = true := by
  obtain ⟨⟨nodup, -, -⟩, hrule, hparam, hslash, -⟩ := h
  have hlen : head.children.length < 2 := by
    match hchildren : head.children with
    | [] => simp
    | [_] => simp
    | x :: y :: rest =>
        rw [hchildren] at nodup hslash
        have hxy : x.label = y.label := by rw [hslash x (by simp), hslash y (by simp)]
        simp [hxy] at nodup
  have hnone : ∀ child ∈ head.children, child.param = none := by
    intro child hchild
    have hlabel := hslash child hchild
    rw [Node.label] at hlabel
    cases hp : child.param with
    | none => rfl
    | some type => simp [hp] at hlabel
  simp only [Node.IsSimpleNode, hrule, hparam, Bool.and_eq_true, decide_eq_true_eq,
    List.all_eq_true, Option.isNone_iff_eq_none]
  exact ⟨⟨⟨trivial, hlen⟩, trivial⟩, hnone⟩

theorem validate_spec {head : Node} (h : Open head) :
    ∃ head', validate head = .ok head' ∧ head'.Keyed ∧ head'.entries = head.entries ∧
      (head'.children = [] ↔ head.entries = []) := by
  refine ⟨_, if_pos h.isSimpleNode, ?_, ?_, ?_⟩
  · obtain ⟨hlabel, hkeyed⟩ := h.plain.keyed
    refine .mk (fun x hx => ?_) ?_
    · obtain ⟨y, hy, rfl⟩ := List.mem_map.mp hx
      exact Node.optimizeNode_label (hlabel y hy)
    · rw [← Node.optimizeAll_eq]
      exact Node.keyed_optimizeAll _ hkeyed
  · have hrows (child : Node) : (Node.optimizeNode child).rows = child.rows := by
      rw [Node.optimizeNode, Node.rows_optimizeBehind [] child (.inl rfl)]
      simp
    simp [Node.entries_eq, List.flatMap_map, hrows]
  · rw [List.map_eq_nil_iff]
    constructor
    · intro hnil
      rw [Node.entries_eq, if_pos h.rule_index, hnil]
      rfl
    · intro hnil
      by_contra hne
      exact h.used hne hnil

end Trie

/-! ## One method after the other -/

theorem forMethods_eq_ok_iff {α : Type} {change : PerMethod α → Except StartFault (PerMethod α)}
    {methods : List HTTPMethod} (hnodup : methods.Nodup) {f g : HTTPMethod → PerMethod α} :
    forMethods change methods f = .ok g ↔
      ∀ m, (if m ∈ methods then change (f m) else .ok (f m)) = .ok (g m) := by
  induction methods generalizing f with
  | nil => simp [forMethods, pure, Except.pure, funext_iff]
  | cons m methods ih =>
      obtain ⟨hm, hnodup⟩ := List.nodup_cons.mp hnodup
      cases hchange : change (f m) with
      | error e =>
          constructor
          · intro h
            simp [forMethods, hchange, bind, Except.bind] at h
          · intro h
            have hm := h m
            simp [hchange] at hm
      | ok b =>
          have hstep : forMethods change (m :: methods) f =
              forMethods change methods (Function.update f m b) := by
            simp [forMethods, hchange, bind, Except.bind, pure, Except.pure]
          rw [hstep, ih hnodup]
          refine forall_congr' fun k => ?_
          by_cases hk : k = m
          · subst hk
            simp [hm, hchange]
          · simp [hk]

/-! ## The rules of one method -/

section Rules

variable {α : Type}

/-- The rows of a rule with the index `k`. -/
def BaseRule.rows (rule : BaseRule α) (k : Nat) : Table UInt8 ParamType Nat :=
  (rule.pattern, k) :: rule.slashless.map fun p => (p, RULE_SPECIAL_REDIRECT_SLASH)

def tableFrom : Nat → List (BaseRule α) → Table UInt8 ParamType Nat
  | _, [] => []
  | k, rule :: rules => rule.rows k ++ tableFrom (k + 1) rules

theorem tableFrom_snoc (k : Nat) (rules : List (BaseRule α)) (rule : BaseRule α) :
    tableFrom k (rules ++ [rule]) = tableFrom k rules ++ rule.rows (k + rules.length) := by
  induction rules generalizing k with
  | nil => simp [tableFrom]
  | cons r rules ih =>
      rw [List.cons_append, tableFrom, ih, tableFrom, List.append_assoc, List.length_cons,
        Nat.add_right_comm]
      rfl

theorem patterns_tableFrom (k : Nat) (rules : List (BaseRule α)) :
    (tableFrom k rules).map Prod.fst = rules.flatMap BaseRule.patterns := by
  induction rules generalizing k with
  | nil => rfl
  | cons rule rules ih =>
      simp [tableFrom, ih, BaseRule.rows, BaseRule.patterns, Function.comp_def]

theorem fits_snoc {rules : List (BaseRule α)} {rule : BaseRule α} :
    Fits (rules ++ [rule]) ↔ Fits rules ∧ rule.Readable ∧ rule.patterns.Nodup ∧
      ∀ p ∈ rule.patterns, p ∉ rules.flatMap BaseRule.patterns := by
  rw [Fits, Fits, List.forall_mem_append, List.forall_mem_singleton, List.flatMap_append,
    List.flatMap_singleton, List.nodup_append]
  constructor
  · intro h
    exact ⟨⟨h.1.1, h.2.1⟩, h.1.2, h.2.2.1, fun p hp hmem => h.2.2.2 p hmem p hp rfl⟩
  · intro h
    exact ⟨⟨h.1.1, h.2.1⟩, h.1.2, h.2.2.1, fun p hp q hq heq => h.2.2.2 q hq (heq ▸ hp)⟩

/-- The rules that were added to the entry of a method. -/
structure PerMethod.Holds (per_method : PerMethod α) (rules : List (BaseRule α)) : Prop where
  listed : per_method.rules = none :: none :: rules.map some
  trie : Trie.Open per_method.trie
  entries : per_method.trie.entries.Perm (tableFrom 2 rules)

theorem PerMethod.Holds.new : ({} : PerMethod α).Holds [] where
  listed := rfl
  trie := .new
  entries := .refl _

theorem PerMethod.Holds.mem_patterns {per_method : PerMethod α} {rules : List (BaseRule α)}
    (h : per_method.Holds rules) (p : Pattern UInt8 ParamType) :
    p ∈ per_method.trie.entries.map Prod.fst ↔ p ∈ rules.flatMap BaseRule.patterns := by
  rw [(h.entries.map Prod.fst).mem_iff, patterns_tableFrom]

theorem head?_dropLast {url : Str} (h : has_trailing_slash url = true) :
    url.dropLast.head? = url.head? := by
  match url with
  | [] => rfl
  | [_] => simp [has_trailing_slash] at h
  | _ :: _ :: _ => rfl

theorem add_rule_eq {per_method : PerMethod α} {rules : List (BaseRule α)} (rule : BaseRule α)
    (h : per_method.Holds rules) (hlen : rules.length < 0xFFFE) :
    per_method.add_rule rule =
      (Trie.add rule.rule_ (rules.length + 2) per_method.trie).bind fun trie =>
        (if has_trailing_slash rule.rule_ then
          Trie.add rule.rule_.dropLast RULE_SPECIAL_REDIRECT_SLASH trie
        else .ok trie).map fun trie =>
          { rules := none :: none :: (rules ++ [rule]).map some, trie := trie } := by
  have hindex : ((per_method.rules ++ [some rule]).length - 1) % 0x10000 = rules.length + 2 := by
    simp [h.listed]
    omega
  rw [PerMethod.add_rule, hindex, h.listed, List.map_append]
  cases Trie.add rule.rule_ (rules.length + 2) per_method.trie with
  | error e => rfl
  | ok trie =>
      cases has_trailing_slash rule.rule_ with
      | false => rfl
      | true =>
          simp only [if_true, bind, Except.bind, Except.map]
          cases Trie.add rule.rule_.dropLast RULE_SPECIAL_REDIRECT_SLASH trie <;> rfl

/-- A rule can be added to those that were added if and only if it fits to them. -/
theorem add_rule_spec {per_method : PerMethod α} {rules : List (BaseRule α)} {rule : BaseRule α}
    (h : per_method.Holds rules) (hfits : Fits rules) (hslash : rule.rule_.head? = some '/'.toUInt8)
    (hnul : 0 ∉ rule.rule_) (hlen : rules.length < 0xFFFE) :
    (Fits (rules ++ [rule]) ∧ ∃ per_method', per_method.add_rule rule = .ok per_method' ∧
      per_method'.Holds (rules ++ [rule])) ∨
    ¬ Fits (rules ++ [rule]) ∧ ∃ e, per_method.add_rule rule = .error e := by
  rw [add_rule_eq rule h hlen, fits_snoc]
  cases Trie.add_spec h.trie hslash hnul (show rules.length + 2 ≠ 0 by omega) with
  | inr hbad =>
      right
      obtain ⟨hbad, e, he⟩ := hbad
      refine ⟨fun hall => ?_, e, by rw [he]; rfl⟩
      obtain ⟨-, hread, -, hfresh⟩ := hall
      obtain ⟨ps, hps⟩ := Option.isSome_iff_exists.mp hread.1
      have hmem := (h.mem_patterns ps).mp (hbad ps hps)
      exact hfresh ps (by simp [BaseRule.patterns, BaseRule.pattern, hps]) hmem
  | inl hgood =>
      obtain ⟨ps, trie, hps, hnew, hadd, hopen, hperm⟩ := hgood
      rw [hadd, Except.bind]
      have hpattern : rule.pattern = ps := by rw [BaseRule.pattern, hps]; rfl
      have hfresh : rule.pattern ∉ rules.flatMap BaseRule.patterns := by
        rw [hpattern, ← h.mem_patterns]
        exact hnew
      by_cases htrail : has_trailing_slash rule.rule_ = true
      · rw [if_pos htrail]
        have hslash' : rule.rule_.dropLast.head? = some '/'.toUInt8 := by
          rw [head?_dropLast htrail, hslash]
        have hnul' : 0 ∉ rule.rule_.dropLast := fun hmem => hnul (List.mem_of_mem_dropLast hmem)
        have hkeys (q : Pattern UInt8 ParamType) : q ∈ trie.entries.map Prod.fst ↔
            q = rule.pattern ∨ q ∈ rules.flatMap BaseRule.patterns := by
          rw [(hperm.map Prod.fst).mem_iff, List.map_cons, List.mem_cons, h.mem_patterns, hpattern]
        cases Trie.add_spec hopen hslash' hnul' (show RULE_SPECIAL_REDIRECT_SLASH ≠ 0 by decide) with
        | inr hbad =>
            right
            obtain ⟨hbad, e, he⟩ := hbad
            refine ⟨fun hall => ?_, e, by rw [he]; rfl⟩
            obtain ⟨-, hread, hnodup, hfresh'⟩ := hall
            obtain ⟨q, hq⟩ := Option.isSome_iff_exists.mp (hread.2 htrail)
            have hslashless : rule.slashless = [q] := by
              rw [BaseRule.slashless, if_pos htrail, hq]
              rfl
            rw [BaseRule.patterns, hslashless] at hnodup hfresh'
            cases (hkeys q).mp (hbad q hq) with
            | inl heq => simp [heq] at hnodup
            | inr hmem => exact hfresh' q (by simp) hmem
        | inl hgood =>
            left
            obtain ⟨q, trie', hq, hnew', hadd', hopen', hperm'⟩ := hgood
            have hslashless : rule.slashless = [q] := by
              rw [BaseRule.slashless, if_pos htrail, hq]
              rfl
            rw [hkeys, not_or] at hnew'
            rw [hadd']
            refine ⟨⟨hfits, ⟨by simp [hps], fun _ => by simp [hq]⟩, ?_, ?_⟩, _, rfl, rfl, hopen',
              ?_⟩
            · simp [BaseRule.patterns, hslashless, Ne.symm hnew'.1]
            · rw [BaseRule.patterns, hslashless, List.forall_mem_cons, List.forall_mem_singleton]
              exact ⟨hfresh, hnew'.2⟩
            · rw [tableFrom_snoc, BaseRule.rows, hslashless, hpattern, Nat.add_comm 2]
              refine ((hperm'.trans ((hperm.trans (h.entries.cons _)).cons _)).trans
                (.swap _ _ _)).trans ?_
              exact @List.perm_append_comm _
                [(ps, rules.length + 2), (q, RULE_SPECIAL_REDIRECT_SLASH)] _
      · left
        rw [if_neg htrail]
        have hslashless : rule.slashless = [] := if_neg htrail
        refine ⟨⟨hfits, ⟨by simp [hps], fun hc => absurd hc htrail⟩, ?_, ?_⟩, _, rfl, rfl, hopen,
          ?_⟩
        · simp [BaseRule.patterns, hslashless]
        · simpa [BaseRule.patterns, hslashless] using hfresh
        · rw [tableFrom_snoc, BaseRule.rows, hslashless, hpattern, Nat.add_comm 2]
          exact (hperm.trans (h.entries.cons _)).trans (List.perm_append_singleton _ _).symm

def PerMethod.addAll (rules : List (BaseRule α)) (per_method : PerMethod α) :
    Except StartFault (PerMethod α) :=
  rules.foldlM (fun per_method rule => PerMethod.add_rule rule per_method) per_method

theorem addAll_spec {rules : List (BaseRule α)}
    (hslash : ∀ rule ∈ rules, rule.rule_.head? = some '/'.toUInt8)
    (hnul : ∀ rule ∈ rules, 0 ∉ rule.rule_) (hlen : rules.length ≤ 0xFFFE) :
    (Fits rules ∧ ∃ per_method, PerMethod.addAll rules {} = .ok per_method ∧
      per_method.Holds rules) ∨
    ¬ Fits rules ∧ ∃ e, PerMethod.addAll rules {} = .error e := by
  induction rules using List.reverseRecOn with
  | nil =>
      left
      exact ⟨⟨by simp, by simp⟩, _, rfl, .new⟩
  | append_singleton rules rule ih =>
      rw [List.forall_mem_append, List.forall_mem_singleton] at hslash hnul
      rw [List.length_append, List.length_singleton] at hlen
      rw [PerMethod.addAll, List.foldlM_append, ← PerMethod.addAll]
      cases ih hslash.1 hnul.1 (by omega) with
      | inl hok =>
          obtain ⟨hfits, per_method, heq, hholds⟩ := hok
          rw [heq]
          cases add_rule_spec hholds hfits hslash.2 hnul.2 (by omega) with
          | inl h =>
              left
              obtain ⟨hfits', per_method', heq', hholds'⟩ := h
              refine ⟨hfits', per_method', ?_, hholds'⟩
              simp [bind, Except.bind, heq', pure, Except.pure]
          | inr h =>
              right
              obtain ⟨hfits', e, he⟩ := h
              exact ⟨hfits', e, by simp [bind, Except.bind, he]⟩
      | inr hbad =>
          right
          obtain ⟨hfits, e, he⟩ := hbad
          refine ⟨fun hall => hfits (fits_snoc.mp hall).1, e, ?_⟩
          rw [he]
          rfl

/-! ## The rules of all methods -/

theorem foreach_method_nodup (rule : BaseRule α) : rule.foreach_method.Nodup := by
  have hall : (HTTPMethod.all.zipIdx.map Prod.fst).Nodup := by decide
  exact (List.filter_sublist.map Prod.fst).nodup hall

theorem mem_all (m : HTTPMethod) : m ∈ HTTPMethod.all := by
  cases m <;> decide

theorem bind_eq_ok_iff {β γ : Type} {x : Except StartFault β} {f : β → Except StartFault γ}
    {c : γ} :
    x >>= f = .ok c ↔ ∃ b, x = .ok b ∧ f b = .ok c := by
  cases x <;> simp [bind, Except.bind]

theorem addAll_cons {rule : BaseRule α} {rules : List (BaseRule α)} {m : HTTPMethod}
    {per_method result : PerMethod α} :
    PerMethod.addAll (rulesFor m (rule :: rules)) per_method = .ok result ↔
      ∃ b, (if m ∈ rule.foreach_method then per_method.add_rule rule else .ok per_method) = .ok b ∧
        PerMethod.addAll (rulesFor m rules) b = .ok result := by
  by_cases hm : m ∈ rule.foreach_method
  · rw [rulesFor, List.filter_cons_of_pos (by simpa using hm), PerMethod.addAll, List.foldlM_cons,
      bind_eq_ok_iff]
    simp only [hm, if_true]
    rfl
  · rw [rulesFor, List.filter_cons_of_neg (by simpa using hm)]
    simp only [hm, if_false, Except.ok.injEq, exists_eq_left']
    rfl

theorem internal_add_rule_object_eq_ok_iff {rule : BaseRule α} {router router' : Router α} :
    router.internal_add_rule_object rule = .ok router' ↔ ∀ m,
      (if m ∈ rule.foreach_method then (router.per_methods_ m).add_rule rule
        else .ok (router.per_methods_ m)) = .ok (router'.per_methods_ m) := by
  rw [← forMethods_eq_ok_iff (foreach_method_nodup rule), Router.internal_add_rule_object,
    bind_eq_ok_iff]
  obtain ⟨per_methods_⟩ := router'
  simp [pure, Except.pure]

theorem addRules_eq_ok_iff {rules : List (BaseRule α)} {router router' : Router α} :
    rules.foldlM (fun router rule => do
      rule.validate
      router.internal_add_rule_object rule) router = .ok router' ↔
    (∀ rule ∈ rules, rule.validate = .ok ()) ∧ ∀ m,
      PerMethod.addAll (rulesFor m rules) (router.per_methods_ m) = .ok (router'.per_methods_ m) := by
  induction rules generalizing router with
  | nil =>
      obtain ⟨f⟩ := router
      obtain ⟨g⟩ := router'
      simp [rulesFor, PerMethod.addAll, pure, Except.pure, funext_iff]
  | cons rule rules ih =>
      rw [List.foldlM_cons, bind_eq_ok_iff, List.forall_mem_cons]
      simp only [bind_eq_ok_iff, ih, internal_add_rule_object_eq_ok_iff, addAll_cons,
        Classical.skolem, forall_and]
      constructor
      · intro h
        obtain ⟨router₁, ⟨⟨⟩, hrule, hadd⟩, hrules, hrest⟩ := h
        exact ⟨⟨hrule, hrules⟩, router₁.per_methods_, hadd, hrest⟩
      · intro h
        obtain ⟨⟨hrule, hrules⟩, f, hadd, hrest⟩ := h
        exact ⟨⟨f⟩, ⟨⟨⟩, hrule, hadd⟩, hrules, hrest⟩

theorem validate_eq_ok_iff {rules : List (BaseRule α)} {router : Router α} :
    Router.validate rules = .ok router ↔ (∀ rule ∈ rules, rule.validate = .ok ()) ∧ ∀ m,
      ∃ b, PerMethod.addAll (rulesFor m rules) {} = .ok b ∧
        b.validate = .ok (router.per_methods_ m) := by
  have hall : HTTPMethod.all.Nodup := by decide
  rw [Router.validate]
  simp only [bind_eq_ok_iff, addRules_eq_ok_iff, forMethods_eq_ok_iff hall, mem_all, if_true,
    Classical.skolem, forall_and]
  constructor
  · intro h
    obtain ⟨router₁, ⟨hrules, hadd⟩, f, hvalidate, heq⟩ := h
    cases heq
    exact ⟨hrules, router₁.per_methods_, hadd, hvalidate⟩
  · intro h
    obtain ⟨hrules, f, hadd, hvalidate⟩ := h
    exact ⟨⟨f⟩, ⟨hrules, hadd⟩, router.per_methods_, hvalidate, rfl⟩

theorem baseRule_validate_eq_ok_iff {rule : BaseRule α} :
    rule.validate = .ok () ↔ rule.rule_.head? = some '/'.toUInt8 ∧ rule.handler_.isSome := by
  rw [BaseRule.validate]
  cases rule.rule_ with
  | nil => simp
  | cons c url =>
      by_cases hc : c = '/'.toUInt8
      · cases rule.handler_ <;> simp [hc, pure, Except.pure]
      · simp [hc]

/-- The entry of a method that serves requests. -/
structure PerMethod.Serves (per_method : PerMethod α) (rules : List (BaseRule α)) : Prop where
  listed : per_method.rules = none :: none :: rules.map some
  keyed : per_method.trie.Keyed
  entries : per_method.trie.entries.Perm (tableFrom 2 rules)
  is_empty : Trie.is_empty per_method.trie = rules.isEmpty

theorem PerMethod.Holds.validate {per_method : PerMethod α} {rules : List (BaseRule α)}
    (h : per_method.Holds rules) :
    ∃ per_method', per_method.validate = .ok per_method' ∧ per_method'.Serves rules := by
  obtain ⟨trie, htrie, hkeyed, hentries, hempty⟩ := Trie.validate_spec h.trie
  refine ⟨{ per_method with trie := trie }, by rw [PerMethod.validate, htrie]; rfl, h.listed, hkeyed,
    hentries ▸ h.entries, ?_⟩
  rw [Bool.eq_iff_iff, Trie.is_empty, List.isEmpty_iff, List.isEmpty_iff, hempty]
  have hperm := h.entries
  cases rules with
  | nil => simpa [tableFrom] using hperm
  | cons rule rules =>
      simp only [reduceCtorEq, iff_false]
      intro hnil
      rw [hnil] at hperm
      simp [tableFrom, BaseRule.rows] at hperm

/-- The router starts with rules that can all be added, and with no others. -/
theorem validate_cases {rules : List (BaseRule α)} (hnul : ∀ rule ∈ rules, 0 ∉ rule.rule_)
    (hlen : rules.length ≤ 0xFFFE) :
    (Startable rules ∧ ∃ router, Router.validate rules = .ok router ∧
      ∀ m, (router.per_methods_ m).Serves (rulesFor m rules)) ∨
    ¬ Startable rules ∧ ∃ e, Router.validate rules = .error e := by
  have hvalid : (∀ rule ∈ rules, rule.validate = .ok ()) ↔
      (∀ rule ∈ rules, rule.rule_.head? = some '/'.toUInt8) ∧
        ∀ rule ∈ rules, rule.handler_.isSome := by
    simp only [baseRule_validate_eq_ok_iff]
    exact ⟨fun h => ⟨fun r hr => (h r hr).1, fun r hr => (h r hr).2⟩,
      fun h r hr => ⟨h.1 r hr, h.2 r hr⟩⟩
  have hadd (hslash : ∀ rule ∈ rules, rule.rule_.head? = some '/'.toUInt8) (m : HTTPMethod) :=
    @addAll_spec _ (rulesFor m rules) (fun r hr => hslash r (List.mem_filter.mp hr).1)
      (fun r hr => hnul r (List.mem_filter.mp hr).1) ((List.length_filter_le _ _).trans hlen)
  by_cases hstart : Startable rules
  · left
    have hserves (m : HTTPMethod) : ∃ b per_method, (PerMethod.addAll (rulesFor m rules) {} = .ok b ∧
        b.validate = .ok per_method) ∧ per_method.Serves (rulesFor m rules) := by
      cases hadd hstart.slash m with
      | inl hok =>
          obtain ⟨-, b, hb, hholds⟩ := hok
          obtain ⟨per_method, hvalidate, hserves⟩ := hholds.validate
          exact ⟨b, per_method, ⟨hb, hvalidate⟩, hserves⟩
      | inr hbad => exact absurd (hstart.fits m) hbad.1
    choose b per_methods_ hok hserves using hserves
    refine ⟨hstart, ⟨per_methods_⟩,
      validate_eq_ok_iff.mpr ⟨hvalid.mpr ⟨hstart.slash, hstart.handler⟩,
      fun m => ⟨b m, hok m⟩⟩, hserves⟩
  · right
    refine ⟨hstart, ?_⟩
    cases hr : Router.validate rules with
    | error e => exact ⟨e, rfl⟩
    | ok router =>
        obtain ⟨hrules, hall⟩ := validate_eq_ok_iff.mp hr
        obtain ⟨hslash, hhandler⟩ := hvalid.mp hrules
        refine absurd ⟨hslash, hhandler, fun m => ?_⟩ hstart
        cases hadd hslash m with
        | inl hok => exact hok.1
        | inr hbad =>
            obtain ⟨-, e, he⟩ := hbad
            obtain ⟨b, hb, -⟩ := hall m
            rw [he] at hb
            cases hb

/-! ## Searching -/

section Find

variable {δ : Type} {strtod : Str → Option (δ × Nat)}

theorem mem_tableFrom {k : Nat} {rules : List (BaseRule α)} {p : Pattern UInt8 ParamType} {i : Nat} :
    (p, i) ∈ tableFrom k rules ↔
      (∃ j rule, rules[j]? = some rule ∧ p = rule.pattern ∧ i = k + j) ∨
      i = RULE_SPECIAL_REDIRECT_SLASH ∧ ∃ rule ∈ rules, p ∈ rule.slashless := by
  induction rules generalizing k with
  | nil => simp [tableFrom]
  | cons rule rules ih =>
      rw [tableFrom, List.mem_append, ih, BaseRule.rows]
      constructor
      · intro h
        rcases h with hrow | ⟨j, r, hj, hp, hi⟩ | ⟨hi, r, hr, hp⟩
        · rw [List.mem_cons, Prod.mk.injEq, List.mem_map] at hrow
          rcases hrow with ⟨hp, hi⟩ | ⟨q, hq, heq⟩
          · exact .inl ⟨0, rule, rfl, hp, hi⟩
          · cases heq
            exact .inr ⟨rfl, rule, by simp, hq⟩
        · exact .inl ⟨j + 1, r, hj, hp, by omega⟩
        · exact .inr ⟨hi, r, by simp [hr], hp⟩
      · intro h
        rcases h with ⟨j, r, hj, hp, hi⟩ | ⟨hi, r, hr, hp⟩
        · cases j with
          | zero =>
              cases hj
              exact .inl (by simp [hp, hi])
          | succ j => exact .inr (.inl ⟨j, r, hj, hp, by omega⟩)
        · cases List.mem_cons.mp hr with
          | inl heq =>
              subst heq
              exact .inl (by simp [hi, hp])
          | inr hr => exact .inr (.inr ⟨hi, r, hr, hp⟩)

theorem firstRule_eq_some {rules : List (BaseRule α)} {url : Str} {j : Nat} {rule : BaseRule α}
    {args : List (Arg δ)} (hj : rules[j]? = some rule)
    (hread : Patterns.read (ParamType.take strtod) rule.pattern url = some args)
    (hfirst : ∀ k r, rules[k]? = some r →
      Patterns.read (ParamType.take strtod) r.pattern url ≠ none → j ≤ k) :
    firstRule strtod rules url = some (rule, args) := by
  induction rules generalizing j with
  | nil => simp at hj
  | cons r rules ih =>
      rw [firstRule, List.findSome?_cons, ← firstRule]
      cases j with
      | zero =>
          cases hj
          simp [hread]
      | succ j =>
          have hnone : Patterns.read (ParamType.take strtod) r.pattern url = none := by
            by_contra hne
            have := hfirst 0 r rfl hne
            omega
          rw [hnone]
          refine ih hj fun k r' hk hne => ?_
          have := hfirst (k + 1) r' hk hne
          omega

theorem redirects_eq_true_iff {rules : List (BaseRule α)} {url : Str} :
    redirects strtod rules url = true ↔ ∃ rule ∈ rules, ∃ p ∈ rule.slashless,
      Patterns.read (ParamType.take strtod) p url ≠ none := by
  simp [redirects, Option.isSome_iff_ne_none]

/-- What `find` comes upon is what the rules say. -/
def PerMethod.Found (per_method : PerMethod α) (found : Nat × RoutingParams δ) : Match α δ → Prop
  | .nothing => found.1 = 0
  | .redirect => found.1 = RULE_SPECIAL_REDIRECT_SLASH
  | .rule rule args => 2 ≤ found.1 ∧ found.2 = args.foldl .push {} ∧
      per_method.rules[found.1]? = some (some rule)

theorem PerMethod.Serves.find {per_method : PerMethod α} {rules : List (BaseRule α)}
    (h : per_method.Serves rules) (url : Str) :
    per_method.Found (per_method.trie.find strtod url {}) (lookUp strtod rules url) := by
  have hfound := @Node.foundRule_find δ strtod per_method.trie h.keyed url {}
  have hmem (p : Pattern UInt8 ParamType) (i : Nat) :=
    (h.entries.mem_iff (a := (p, i))).trans mem_tableFrom
  generalize per_method.trie.find strtod url {} = found at hfound
  cases hchoose : choose (ParamType.take strtod) per_method.trie.entries url with
  | none =>
      have hnone := (choose_eq_none_iff _).mp hchoose
      have hredirects : ¬ redirects strtod rules url = true := by
        rw [redirects_eq_true_iff]
        intro hex
        obtain ⟨rule, hrule, p, hp, hne⟩ := hex
        exact hne (hnone p _ ((hmem p _).mpr (.inr ⟨rfl, rule, hrule, hp⟩)))
      have hfirst : firstRule strtod rules url = none := by
        rw [firstRule, List.findSome?_eq_none_iff]
        intro rule hrule
        obtain ⟨j, hj⟩ := List.mem_iff_getElem?.mp hrule
        rw [hnone rule.pattern _ ((hmem _ _).mpr (.inl ⟨j, rule, hj, rfl, rfl⟩))]
        rfl
      rw [lookUp, if_neg hredirects, hfirst]
      rw [hchoose] at hfound
      by_contra hne
      simp [Node.foundRule, show found.1 ≠ 0 from hne] at hfound
  | some x =>
      obtain ⟨i, args⟩ := x
      obtain ⟨p, hp, hread⟩ := choose_mem _ hchoose
      have hleast (q : Pattern UInt8 ParamType) (j : Nat) (hq : (q, j) ∈ per_method.trie.entries)
          (hne : Patterns.read (ParamType.take strtod) q url ≠ none) : i ≤ j := by
        obtain ⟨bs, hbs⟩ := Option.ne_none_iff_exists'.mp hne
        exact choose_le _ hchoose hq hbs
      have heq : found = (i, args.foldl .push {}) := by
        rw [hchoose] at hfound
        by_cases hz : found.1 = 0
        · simp [Node.foundRule, hz] at hfound
        · simpa [Node.foundRule, hz, Node.withParams] using hfound
      subst heq
      cases (hmem p i).mp hp with
      | inl hrule =>
          obtain ⟨j, rule, hj, rfl, rfl⟩ := hrule
          have hredirects : ¬ redirects strtod rules url = true := by
            rw [redirects_eq_true_iff]
            intro hex
            obtain ⟨r, hr, q, hq, hne⟩ := hex
            have := hleast q _ ((hmem q _).mpr (.inr ⟨rfl, r, hr, hq⟩)) hne
            rw [RULE_SPECIAL_REDIRECT_SLASH] at this
            omega
          have hfirst : firstRule strtod rules url = some (rule, args) := by
            refine firstRule_eq_some hj hread fun k r hk hne => ?_
            have := hleast _ _ ((hmem _ _).mpr (.inl ⟨k, r, hk, rfl, rfl⟩)) hne
            omega
          rw [lookUp, if_neg hredirects, hfirst]
          refine ⟨Nat.le_add_right _ _, rfl, ?_⟩
          rw [h.listed, Nat.add_comm]
          simp [hj]
      | inr hslashless =>
          obtain ⟨rfl, rule, hr, hslashless⟩ := hslashless
          have hredirects : redirects strtod rules url = true := by
            rw [redirects_eq_true_iff]
            exact ⟨rule, hr, p, hslashless, by rw [hread]; simp⟩
          rw [lookUp, if_pos hredirects]
          rfl

theorem PerMethod.Found.found_iff {per_method : PerMethod α} {found : Nat × RoutingParams δ}
    {x : Match α δ} (h : per_method.Found found x) : found.1 ≠ 0 ↔ x.found = true := by
  cases x with
  | nothing => simp [Match.found, show found.1 = 0 from h]
  | redirect => simp [Match.found, show found.1 = 1 from h]
  | rule r args =>
      have := h.1
      simp [Match.found]
      omega

end Find

end Rules

end TranscodingServer
