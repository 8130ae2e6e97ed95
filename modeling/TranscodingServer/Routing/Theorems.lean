import TranscodingServer.Routing.Lemmas.Router
import TranscodingServer.Routing.Routes

/-!
# The compressed tries serve requests as the rules say
-/

namespace TranscodingServer

variable {α δ : Type} {strtod : Str → Option (δ × Nat)}

/-! ## A request -/

theorem eq_nothing {x : Match α δ} (h : ¬ x.found = true) : x = .nothing := by
  cases x with
  | nothing => rfl
  | redirect => simp [Match.found] at h
  | rule r args => simp [Match.found] at h

section Serve

variable {rules : List (BaseRule α)} {router : Router α}
  (h : ∀ m, (router.per_methods_ m).Serves (rulesFor m rules))
include h

theorem found_iff (m : HTTPMethod) (url : Str) :
    (router.find strtod m url).1 ≠ 0 ↔ (lookUp strtod (rulesFor m rules) url).found = true :=
  ((h m).find url).found_iff

theorem handle_eq {m : HTTPMethod} {url : Str}
    (hfound : (lookUp strtod (rulesFor m rules) url).found = true) (host : Str) (skip_body : Bool) :
    router.handle host url m (router.find strtod m url).1 (router.find strtod m url).2 skip_body =
      (lookUp strtod (rulesFor m rules) url).served host url skip_body := by
  have hfind := @PerMethod.Serves.find _ _ strtod _ _ (h m) url
  rw [← Router.find] at hfind
  generalize router.find strtod m url = found at hfind
  cases hx : lookUp strtod (rulesFor m rules) url with
  | nothing =>
      rw [hx] at hfound
      cases hfound
  | redirect =>
      rw [hx] at hfind
      rw [Router.handle, (h m).listed, show found.1 = RULE_SPECIAL_REDIRECT_SLASH from hfind]
      rfl
  | rule r args =>
      rw [hx] at hfind
      obtain ⟨hge, hparams, hrule⟩ := hfind
      have hne : found.1 ≠ RULE_SPECIAL_REDIRECT_SLASH := by
        rw [RULE_SPECIAL_REDIRECT_SLASH]
        omega
      rw [Router.handle, hrule, hparams]
      cases hhandler : r.handler_ with
      | none => simp only [if_neg hne, Option.bind_some, Match.served, hhandler]
      | some handler => simp only [if_neg hne, Option.bind_some, Match.served, hhandler]

theorem matching_eq (url : Str) :
    (HTTPMethod.all.filter fun m => (router.find strtod m url).1 ≠ 0) =
      methodsFor strtod rules url := by
  refine List.filter_congr fun m _ => ?_
  rw [Bool.eq_iff_iff, decide_eq_true_iff, found_iff h m url]

/-- The tries serve a request as the list of the rules does. -/
theorem serve_eq (host : Str) (method : HTTPMethod) (url : Str) :
    router.serve strtod host method url = plainServe strtod rules host method url := by
  have hserved {m : HTTPMethod} (skip_body : Bool)
      (hm : (lookUp strtod (rulesFor m rules) url).found = true) :=
    handle_eq h hm host skip_body
  have hnot (m : HTTPMethod) (hm : ¬ (lookUp strtod (rulesFor m rules) url).found = true) :
      (router.find strtod m url).1 = 0 := by
    by_contra hne
    exact hm ((found_iff h m url).mp hne)
  have hempty : (HTTPMethod.all.filter fun m => !Trie.is_empty (router.per_methods_ m).trie) =
      HTTPMethod.all.filter fun m => !(rulesFor m rules).isEmpty :=
    List.filter_congr fun m _ => by rw [(h m).is_empty]
  rw [Router.serve, Router.handle_initial, plainServe]
  simp only [matching_eq h url, hempty]
  by_cases hhead : method = .Head
  · simp only [hhead, if_true]
    by_cases hm : (lookUp strtod (rulesFor .Head rules) url).found = true
    · simp only [(found_iff h .Head url).mpr hm, ne_eq, not_false_eq_true, if_true, hm]
      exact hserved true hm
    · simp only [hnot .Head hm, ne_eq, not_true_eq_false, if_false, hm]
      by_cases hg : (lookUp strtod (rulesFor .Get rules) url).found = true
      · simp only [(found_iff h .Get url).mpr hg, if_false]
        exact hserved true hg
      · simp only [hnot .Get hg, if_true]
        rw [eq_nothing hg]
        rfl
  · simp only [hhead, if_false]
    by_cases hoptions : method = .Options
    · simp only [hoptions, if_true]
      by_cases hstar : url = str "/*"
      · simp only [if_pos hstar]
      · simp only [if_neg hstar]
        by_cases hany : methodsFor strtod rules url = []
        · simp only [hany, ne_eq, not_true_eq_false, if_false]
        · simp only [hany, ne_eq, not_false_eq_true, if_true]
    · simp only [hoptions, if_false]
      by_cases hm : (lookUp strtod (rulesFor method rules) url).found = true
      · simp only [(found_iff h method url).mpr hm, if_false, hm]
        exact hserved false hm
      · simp only [hnot method hm, if_true, hm]
        rw [eq_nothing hm]
        by_cases hany : methodsFor strtod rules url = []
        · simp [hany, Match.served]
        · simp [hany]

end Serve

/-- The router starts if and only if every rule can be added. -/
theorem validate_ok_iff (rules : List (BaseRule α)) (hnul : ∀ rule ∈ rules, 0 ∉ rule.rule_)
    (hlen : rules.length ≤ 0xFFFE) :
    (∃ router, Router.validate rules = .ok router) ↔ Startable rules := by
  cases validate_cases hnul hlen with
  | inl h =>
      obtain ⟨hstart, router, heq, -⟩ := h
      exact iff_of_true ⟨router, heq⟩ hstart
  | inr h =>
      obtain ⟨hstart, e, he⟩ := h
      refine iff_of_false (fun hex => ?_) hstart
      obtain ⟨router, heq⟩ := hex
      rw [he] at heq
      cases heq

theorem no_nul_routes : ∀ rule ∈ routes, 0 ∉ rule.rule_ := by decide

theorem validate_ok_iff_routes : Startable routes ∧ ∃ router, Router.validate routes = .ok router :=
  ⟨startable_routes, (validate_ok_iff routes no_nul_routes (by decide)).mpr startable_routes⟩

theorem serves_of_validate {rules : List (BaseRule α)} {router : Router α}
    (hnul : ∀ rule ∈ rules, 0 ∉ rule.rule_) (hlen : rules.length ≤ 0xFFFE)
    (h : Router.validate rules = .ok router) (m : HTTPMethod) :
    (router.per_methods_ m).Serves (rulesFor m rules) := by
  cases validate_cases hnul hlen with
  | inl hcase =>
      obtain ⟨_, router', heq, hserves⟩ := hcase
      rw [heq] at h
      cases h
      exact hserves m
  | inr hcase =>
      obtain ⟨_, e, he⟩ := hcase
      rw [he] at h
      cases h

/-- A router that has started serves every request as the list of its rules says. -/
theorem router_serves_rules (strtod : Str → Option (δ × Nat)) {rules : List (BaseRule α)}
    {router : Router α} (hnul : ∀ rule ∈ rules, 0 ∉ rule.rule_) (hlen : rules.length ≤ 0xFFFE)
    (h : Router.validate rules = .ok router) (host : Str) (method : HTTPMethod) (url : Str) :
    router.serve strtod host method url = plainServe strtod rules host method url :=
  serve_eq (serves_of_validate hnul hlen h) host method url

theorem router_serves_rules_routes : ∃ router, Router.validate routes = .ok router ∧
    router.serve (fun _ => (none : Option (Nat × Nat))) [] .Delete (str "/add") =
      .respond { code := 405 } := by
  obtain ⟨router, heq⟩ := (validate_cases no_nul_routes (by decide)).elim
    (fun hcase => hcase.2.imp fun _ => And.left) (fun hcase => absurd startable_routes hcase.1)
  refine ⟨router, heq, ?_⟩
  rw [router_serves_rules _ no_nul_routes (by decide) heq]
  rfl

end TranscodingServer
