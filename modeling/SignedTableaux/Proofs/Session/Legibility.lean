import SignedTableaux.Proofs.Formula.Instances
import SignedTableaux.Proofs.Session.Hygiene
import SignedTableaux.Proofs.Session.Justification

/-!
# What a session prints can be read

In a session that starts from a text every entry is a legible formula, where the variables
introduced at and above it are in scope. The names that rules draw are names that can be read, and
no function has the name of a variable in scope. So the printed form of an entry is read as the
entry, once the variables in scope are bound.

## Main definitions

* `Session.Legible` — every entry is a legible formula in its scope

## Main results

* `Session.Ledger.function_not_mem_scope` — functions and variables in scope have different names
* `Session.Growth.legible`, `Session.legible_after` — one step and a whole run
* `Session.parse_render_after` — every entry is read back
-/

namespace SignedTableaux

theorem Signed.legible_parts {s : Signed} {d : Decomposition} {scope : List String}
    (h : s.decomposition? = some d) (hlegible : s.formula.Legible scope) :
    ∀ p ∈ d.parts, p.formula.Legible scope ∧ p.formula.isFormula = true := by
  obtain ⟨sign, t⟩ := s
  cases isOf_of_decomposition? h with
  | not hparts =>
    cases hlegible with
    | not hformula ht => simpa [hparts] using ⟨ht, hformula⟩
  | binary hparts =>
    cases hlegible with
    | binary hleft hright hl hr => simpa [hparts] using ⟨⟨hl, hleft⟩, hr, hright⟩
  | quantified hparts => simp [hparts]

namespace Session

variable {s : Session} {φ : Term} {ds : List Draw}

/-- No function of an entry has the name of a variable that is in scope anywhere. -/
theorem Ledger.function_not_mem_scope {p : Spot} {t : Term} {scope : List String}
    (h : s.Ledger φ ds) (hp : p ∈ s.tableau.spots) (hmade : t.MadeFrom φ (skolems ds) scope) :
    ∀ f ∈ t.symbolsOf .function, f ∉ p.branch.filterMap Entry.introduced := by
  intro f hf hscope
  obtain ⟨e, he, hintroduced⟩ := List.mem_filterMap.mp hscope
  have hdraw := h.introduced e (Tableau.mem_entries_of_mem_branch hp he) f hintroduced
  rcases hmade.functions f hf with hφ | hskolem
  · exact h.fresh _ hdraw (Term.symbolsOf_subset_symbols hφ)
  · -- a name is drawn once, so not both by the gamma and by the delta rule
    obtain ⟨d, hd, rfl⟩ := List.mem_map.mp hskolem
    obtain ⟨hd, hrule⟩ := List.mem_filter.mp hd
    have hgamma := congrArg Draw.rule (List.inj_on_of_nodup_map h.nodup hd hdraw rfl)
    simp [hgamma] at hrule

/-- In a session for `φ` every entry is a legible formula, where the variables introduced at and
above it are in scope, and what is introduced are names. -/
structure Legible (s : Session) (φ : Term) : Prop where
  ledger : ∃ ds, s.Ledger φ ds
  formula : ∀ e above, ⟨e.id, .entry e, above⟩ ∈ s.tableau.spots →
    e.signed.formula.Legible ((e :: above).filterMap Entry.introduced) ∧
      e.signed.formula.isFormula = true
  introduced : ∀ e ∈ s.tableau.entries, ∀ x, e.introduced = some x → IsName x

theorem Legible.start (h : φ.Legible []) (hformula : φ.isFormula = true) :
    (ofFormula φ).Legible φ where
  ledger := ⟨[], .start φ⟩
  formula e above hp := by
    obtain ⟨-, rfl, rfl⟩ : _ ∧ e = _ ∧ above = [] := by
      simpa [ofFormula, Tableau.start, Tableau.spots, Tableau.spotsFrom] using hp
    exact ⟨h, hformula⟩
  introduced := by simp [ofFormula, Tableau.start, Tableau.entries]

/-! ### One step -/

namespace Growth

variable (g : Growth s)

/-- The source of a rule is legible where the goal is. -/
theorem legible_source (h : s.Legible φ) :
    g.source.signed.formula.Legible (g.above.filterMap Entry.introduced) := by
  obtain ⟨ds, hledger⟩ := h.ledger
  obtain ⟨lower, upper, habove⟩ := List.append_of_mem g.source_mem
  have hspot := Tableau.mem_spots_of_above g.goal_mem habove
  refine (h.formula _ _ hspot).1.mono ?_ fun f hf hmem => ?_
  · rw [habove, List.filterMap_append]
    exact List.subset_append_right _ _
  · exact absurd hmem (hledger.function_not_mem_scope g.goal_mem (hledger.made _ _ hspot) f hf)

theorem isName_of_mem_scope (h : s.Legible φ) {x : String}
    (hx : x ∈ g.above.filterMap Entry.introduced) : IsName x := by
  obtain ⟨e, he, hintroduced⟩ := List.mem_filterMap.mp hx
  exact h.introduced e (Tableau.mem_entries_of_mem_branch g.goal_mem he) x hintroduced

/-- Where an issued name may have come into scope, an instance of the source at an object whose
functions have that name is a legible formula. -/
theorem legible_instance (h : s.Legible φ) (stem : String) {q : Quantifier} {x : String}
    {body r : Term} {scope : List String} (hsource : g.source.signed.formula = .quantified q x body)
    (hobject : r.IsObject) (hr : r.Legible scope)
    (hfunctions : ∀ f ∈ r.symbolsOf .function, f = (s.names.issue stem).1)
    (hsub : g.above.filterMap Entry.introduced ⊆ scope)
    (hscope : ∀ y ∈ scope, y = (s.names.issue stem).1 ∨ y ∈ g.above.filterMap Entry.introduced) :
    (body.substitute x r).Legible scope ∧ (body.substitute x r).isFormula = true := by
  obtain ⟨ds, hledger⟩ := h.ledger
  have hmade := hledger.made_above g.goal_mem g.source_mem
  have hlegible := g.legible_source h
  rw [hsource] at hmade hlegible
  have hbound : ∀ z ∈ body.boundNames, z ∈ φ.boundNames := fun z hz => hmade.bound z (by simp [hz])
  have hissued : (s.names.issue stem).1 ∉ φ.symbols := fun hmem =>
    s.names.issue_not_mem stem (hledger.symbols_taken _ hmem)
  have hcapture : (Substitution.single x r).CaptureFree body := by
    refine Substitution.captureFree_of_bound hbound fun z hz => ?_
    rcases hscope z (hr.mem_scope hz) with rfl | hz
    · exact hissued
    · obtain ⟨d, hd, rfl⟩ := hledger.exists_draw_of_mem_scope g.goal_mem hz
      exact hledger.fresh d hd
  have hrescopes : body.Rescopes x r (x :: g.above.filterMap Entry.introduced) scope := by
    refine ⟨fun y hy hne => hsub ((List.mem_cons.mp hy).resolve_left hne), fun f hf hmem => ?_,
      fun f hf hmem => ?_, hr⟩
    · rcases hscope f hmem with rfl | hmem
      · exact absurd (hledger.function_mem_taken hmade _ (by simpa using hf))
          (s.names.issue_not_mem stem)
      · exact List.mem_cons_of_mem _ hmem
    · rw [hfunctions f hf] at hmem
      exact hissued (Term.boundNames_subset_symbols (hbound _ hmem))
  cases hlegible with
  | quantified _ hformula hbody =>
    obtain ⟨hkind, hinstance⟩ := Term.legible_substitute hcapture hobject
    exact ⟨hinstance _ _ hbody hrescopes, hkind.trans hformula⟩

/-- Whether a fragment is a legible formula below the goal of a rule. -/
structure LegibleFragment (f : Fragment) : Prop where
  legible : f.signed.formula.Legible (f.introduced.toList ++ g.above.filterMap Entry.introduced)
  isFormula : f.signed.formula.isFormula = true
  introduced : ∀ x, f.introduced = some x → IsName x

theorem legibleFragment_gamma (h : s.Legible φ) {q : Quantifier} {x : String} {body : Term}
    {sign : Sign} (hsource : g.source.signed.formula = .quantified q x body) :
    let y := (s.names.issue (Text.uppercase x)).1
    g.LegibleFragment ⟨⟨sign, body.substitute x (.var y)⟩, some y⟩ := by
  intro y
  have hy : IsName y := by
    have hlegible := g.legible_source h
    rw [hsource] at hlegible
    cases hlegible with
    | quantified hname _ _ => exact isName_numbered_uppercase hname _
  obtain ⟨hlegible, hformula⟩ := g.legible_instance h (Text.uppercase x) hsource (.var y)
    (.var hy List.mem_cons_self) (by simp) (List.subset_cons_self _ _)
    (fun z hz => List.mem_cons.mp hz)
  exact ⟨hlegible, hformula, fun z hz => Option.some.inj hz ▸ hy⟩

theorem legibleFragment_delta (h : s.Legible φ) {q : Quantifier} {x : String} {body : Term}
    {sign : Sign} (hsource : g.source.signed.formula = .quantified q x body) :
    let f := (s.names.issue "f").1
    g.LegibleFragment
      ⟨⟨sign, body.substitute x (.fn f ((g.above.filterMap Entry.introduced).map .var))⟩,
        none⟩ := by
  intro f
  have hf : IsName f := isName_numbered (by simp) (by simp) (by simp [Token.isNameChar]) _
  have hobject : (Term.fn f ((g.above.filterMap Entry.introduced).map .var)).IsObject :=
    .fn f (List.forall_mem_map.mpr fun y _ => .var y)
  have hlegible : (Term.fn f ((g.above.filterMap Entry.introduced).map .var)).Legible
      (g.above.filterMap Entry.introduced) := by
    refine .fn hf (fun hnil hmem => ?_) (List.forall_mem_map.mpr fun y hy => ?_)
    · rw [List.map_eq_nil_iff.mp hnil] at hmem
      cases hmem
    · exact .var (g.isName_of_mem_scope h hy) hy
  obtain ⟨hlegible, hformula⟩ := g.legible_instance h "f" hsource hobject hlegible
    (by simp [f]) (List.Subset.refl _) (fun z hz => .inr hz)
  exact ⟨hlegible, hformula, by simp⟩

/-- What a rule adds are legible formulas. -/
theorem legible_fragments (h : s.Legible φ) : ∀ f ∈ g.expansion.fragments, g.LegibleFragment f := by
  have hexpand := g.expand_eq
  have hsource := g.parts_eq
  by_cases hrule : g.parts.rule.drawsName = false
  · obtain ⟨hfragments, -⟩ := Decomposition.of_expand_parts hrule hexpand
    rw [hfragments]
    refine List.forall_mem_map.mpr fun part hpart => ?_
    obtain ⟨hlegible, hformula⟩ := Signed.legible_parts hsource (g.legible_source h) part hpart
    exact ⟨hlegible, hformula, by simp⟩
  cases hparts : g.parts with
  | alpha first others | beta left right =>
    simp [hparts, Decomposition.rule, Rule.drawsName] at hrule
  | gamma sign x body =>
    rw [hparts] at hexpand hsource
    obtain ⟨hexpansion, -⟩ := Decomposition.of_expand_gamma hexpand
    obtain ⟨q, hq⟩ := Signed.formula_of_quantified hsource (.inl rfl)
    rw [hexpansion]
    simpa [Expansion.fragments] using g.legibleFragment_gamma h hq
  | delta sign x body =>
    rw [hparts] at hexpand hsource
    obtain ⟨hexpansion, -⟩ := Decomposition.of_expand_delta hexpand
    obtain ⟨q, hq⟩ := Signed.formula_of_quantified hsource (.inr rfl)
    rw [hexpansion]
    simpa [Expansion.fragments] using g.legibleFragment_delta h hq

theorem legible (hnumbered : s.tableau.WellNumbered) (h : s.Legible φ) : g.session.Legible φ := by
  obtain ⟨ds, hledger⟩ := h.ledger
  refine ⟨⟨_, g.ledger hnumbered.nodup hledger g.draws_spec⟩, fun e above hp => ?_, ?_⟩
  · rcases (g.mem_spots_iff hnumbered.nodup).mp hp with ⟨hold, -⟩ | hnew
    · exact h.formula e above hold
    · obtain ⟨f, hf, he⟩ := Tableau.exists_fragment_of_mem_ofExpansion hnew rfl
      have hfragment := g.legible_fragments h f hf
      have hscope : (e :: above).filterMap Entry.introduced =
          f.introduced.toList ++ g.above.filterMap Entry.introduced := by
        have hintroduced : e.introduced = f.introduced := congrArg Entry.introduced he
        rw [List.filterMap_cons, hintroduced, g.scope_eq hnew]
        cases f.introduced <;> rfl
      have hsigned : e.signed = f.signed := congrArg Entry.signed he
      rw [hscope, hsigned]
      exact ⟨hfragment.legible, hfragment.isFormula⟩
  · intro e he x hx
    rcases (g.mem_entries_iff hnumbered.nodup).mp he with hold | hnew
    · exact h.introduced e hold x hx
    · obtain ⟨f, hf, he⟩ := Tableau.exists_fragment_of_mem_entries hnew
      rw [he] at hx
      exact (g.legible_fragments h f hf).introduced x hx

end Growth

theorem Closing.legible (c : Closing s) (h : s.Legible φ) : c.session.Legible φ where
  ledger := h.ledger.imp fun _ => c.ledger
  formula e above hp := h.formula e above (Tableau.mem_spots_closeBelow_iff.mp hp)
  introduced e he := by
    rw [Closing.session, Tableau.entries_closeBelow] at he
    exact h.introduced e he

/-! ### Whole runs -/

theorem legible_after (h : φ.Legible []) (hformula : φ.isFormula = true) (rs : List Request) :
    ((ofFormula φ).after rs).Legible φ :=
  after_induction (.start h hformula) (fun g hnumbered h => g.legible hnumbered h)
    (fun c _ h => c.legible h) rs

theorem exists_formula_of_start {text : String} (h : start text = .ok s) :
    ∃ φ, Formula.parse text = .ok φ ∧ ofFormula φ = s := by
  cases hparse : Formula.parse text with
  | error e =>
    unfold start at h
    rw [hparse] at h
    cases h
  | ok φ => exact ⟨φ, rfl, ofFormula_eq_of_start h hparse⟩

/-- In a session that starts from a text, the printed form of every entry is read as the entry, once
the variables introduced at and above it are bound. -/
theorem parse_render_after {text : String} (hstart : start text = .ok s) (rs : List Request)
    {node : Node} (hnode : node ∈ (s.after rs).tableau.nodes) {e : Entry}
    (hentry : node.asEntry = some e) :
    ∃ t, Formula.parse e.signed.formula.render = .ok t ∧
      t.bindNames ((s.after rs).tableau.freeVars node.id) = e.signed.formula := by
  obtain ⟨φ, hparse, rfl⟩ := exists_formula_of_start hstart
  obtain ⟨hφ, hformula⟩ := Formula.legible_of_parse hparse
  obtain ⟨hid, above, hspot⟩ := Tableau.exists_above_of_mem_nodes hnode hentry
  obtain ⟨hlegible, hentryFormula⟩ := (legible_after hφ hformula rs).formula e above hspot
  have hscope : ((ofFormula φ).after rs).tableau.freeVars node.id =
      (e :: above).filterMap Entry.introduced := by
    rw [Tableau.freeVars, hid, Tableau.branch?_of_mem_spots (wellNumbered_after φ rs).nodup hspot]
    rfl
  rw [hscope]
  exact hlegible.exists_parse_render hentryFormula

/-- The variable and the Skolem term of an instance are printed and read back. -/
theorem parse_render_skolemTerm :
    let s := ofFormula (.binary .implies (.quantified .universal "x" (.quantified .existential "y"
      (.pred "R" [.var "x", .var "y", .fn "c" []]))) (.pred "P" []))
    let rs : List Request :=
      [.applyRule .alpha 1 0, .applyRule .gamma 3 1, .applyRule .delta 4 3]
    start "(∀x ∃y R(x, y, c)) -> P" = .ok s ∧
      ∃ node e, node ∈ (s.after rs).tableau.nodes ∧ node.asEntry = some e ∧
        e.signed.formula.render = "R(X_1, f_2(X_1), c)" ∧
        ∃ t, Formula.parse e.signed.formula.render = .ok t ∧
          t.bindNames ((s.after rs).tableau.freeVars node.id) = e.signed.formula := by
  intro s rs
  have hstart : start "(∀x ∃y R(x, y, c)) -> P" = .ok s := by decide +kernel
  have hrender : (((s.after rs).tableau.node? 4).bind Node.asEntry).map (·.signed.formula.render) =
      some "R(X_1, f_2(X_1), c)" := by
    decide +kernel
  obtain ⟨e, hbind, hrender⟩ := Option.map_eq_some_iff.mp hrender
  obtain ⟨node, hnode, hentry⟩ := Option.bind_eq_some_iff.mp hbind
  have hmem := List.mem_of_find?_eq_some hnode
  exact ⟨hstart, node, e, hmem, hentry, hrender, parse_render_after hstart rs hmem hentry⟩

end Session

end SignedTableaux
