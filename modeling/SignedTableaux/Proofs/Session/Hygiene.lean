import SignedTableaux.Proofs.Session.Names

/-!
# Sessions for closed formulas

In a session for a closed formula the free variables of an entry were all introduced at or above it.
Hence a Skolem term, which is about all variables introduced above a goal, is about all free
variables of the entry that is expanded there.

## Main definitions

* `Term.Tidy` — what the names in a formula of a session have to do with the formula to be proved
* `NameSupply.Guards` — the names that may not be issued
* `Session.Hygienic` — every entry is tidy, and every introduced variable is new

## Main results

* `Term.Tidy.captureFree_fresh`, `Term.Tidy.captureFree_skolem` — rules make substitutions without
  capture
* `Session.hygienic_after` — sessions are hygienic after every run
-/

namespace SignedTableaux

/-- What the names in a formula have to do with the formula `φ` of the session: they are all taken,
binders come from `φ`, and free variables are in scope. -/
structure Term.Tidy (t φ : Term) (names : NameSupply) (scope : List String) : Prop where
  symbols_taken : ∀ x ∈ t.symbols, x ∈ names.taken
  bound : ∀ x ∈ t.boundNames, x ∈ φ.boundNames
  free : ∀ x ∈ t.freeVars, x ∈ scope

/-- No name of `φ` and no variable in scope may be issued, and these two kinds are apart. -/
structure NameSupply.Guards (names : NameSupply) (φ : Term) (scope : List String) : Prop where
  symbols_taken : ∀ x ∈ φ.symbols, x ∈ names.taken
  scope_taken : ∀ x ∈ scope, x ∈ names.taken
  scope_not_mem : ∀ x ∈ scope, x ∉ φ.symbols

namespace Term.Tidy

variable {φ t : Term} {names : NameSupply} {scope scope' : List String}
  {q : Quantifier} {x : String}

theorem mono (h : t.Tidy φ names scope) (hscope : scope ⊆ scope') : t.Tidy φ names scope' where
  symbols_taken := h.symbols_taken
  bound := h.bound
  free x hx := hscope (h.free x hx)

/-- A new variable is bound nowhere. -/
theorem captureFree_fresh (h : (Term.quantified q x t).Tidy φ names scope)
    (hguards : names.Guards φ scope) (stem : String) :
    (Substitution.single x (.var (names.issue stem).1)).CaptureFree t := by
  refine Substitution.captureFree_of_bound (fun z hz => h.bound z (by simp [hz]))
    fun z hz hmem => ?_
  rw [mem_freeVars_var.mp hz] at hmem
  exact names.issue_not_mem stem (hguards.symbols_taken _ hmem)

/-- The variables in scope are bound nowhere. -/
theorem captureFree_skolem (h : (Term.quantified q x t).Tidy φ names scope)
    (hguards : names.Guards φ scope) (f : String) :
    (Substitution.single x (.fn f (scope.map .var))).CaptureFree t :=
  Substitution.captureFree_of_bound (fun z hz => h.bound z (by simp [hz])) fun z hz =>
    hguards.scope_not_mem z (by simpa using hz)

end Term.Tidy

namespace Session

/-- In a session for `φ` every entry is tidy, and every introduced variable is new. -/
structure Hygienic (s : Session) (φ : Term) : Prop where
  symbols_taken : ∀ x ∈ φ.symbols, x ∈ s.names.taken
  tidy : ∀ e above, ⟨e.id, .entry e, above⟩ ∈ s.tableau.spots →
    e.signed.formula.Tidy φ s.names ((e :: above).filterMap Entry.introduced)
  introduced : ∀ e above x, ⟨e.id, .entry e, above⟩ ∈ s.tableau.spots → e.introduced = some x →
    x ∈ s.names.taken ∧ x ∉ φ.symbols

variable {s : Session} {φ : Term} {ds : List Draw}

theorem Hygienic.guards {p : Spot} (h : s.Hygienic φ) (hp : p ∈ s.tableau.spots) :
    s.names.Guards φ (p.above.filterMap Entry.introduced) := by
  have hscope : ∀ x ∈ p.above.filterMap Entry.introduced, x ∈ s.names.taken ∧ x ∉ φ.symbols := by
    intro x hx
    obtain ⟨e, he, hex⟩ := List.mem_filterMap.mp hx
    obtain ⟨lower, upper, habove⟩ := List.append_of_mem he
    exact h.introduced e upper x (Tableau.mem_spots_of_above hp habove) hex
  exact ⟨h.symbols_taken, fun x hx => (hscope x hx).1, fun x hx => (hscope x hx).2⟩

/-- The free variables of an entry above a spot are introduced above the spot. -/
theorem Hygienic.tidy_above {p : Spot} {e : Entry} (h : s.Hygienic φ) (hp : p ∈ s.tableau.spots)
    (he : e ∈ p.above) :
    e.signed.formula.Tidy φ s.names (p.above.filterMap Entry.introduced) := by
  obtain ⟨lower, upper, habove⟩ := List.append_of_mem he
  refine (h.tidy e upper (Tableau.mem_spots_of_above hp habove)).mono ?_
  rw [habove, List.filterMap_append]
  exact List.subset_append_right _ _

/-- The functions of an entry are not drawn again. -/
theorem Ledger.function_mem_taken {t : Term} {scope : List String} (h : s.Ledger φ ds)
    (hmade : t.MadeFrom φ (skolems ds) scope) :
    ∀ f ∈ t.symbolsOf .function, f ∈ s.names.taken := by
  intro f hf
  rcases hmade.functions f hf with hφ | hskolem
  · exact h.symbols_taken f (Term.symbolsOf_subset_symbols hφ)
  · obtain ⟨d, hd, rfl⟩ := List.mem_map.mp hskolem
    exact h.taken d (List.mem_filter.mp hd).1

/-- The names of an entry are not drawn again. -/
theorem Ledger.symbols_mem_taken {t : Term} {scope : List String} (h : s.Ledger φ ds)
    (hscope : ∀ x ∈ scope, x ∈ s.names.taken) (hmade : t.MadeFrom φ (skolems ds) scope) :
    ∀ x ∈ t.symbols, x ∈ s.names.taken := by
  intro x hx
  rcases Term.mem_symbols_cases hx with ⟨kind, hx⟩ | hx | hx
  · cases kind with
    | predicate =>
      exact h.symbols_taken x (Term.symbolsOf_subset_symbols (hmade.predicates x hx))
    | function => exact h.function_mem_taken hmade x hx
  · rcases hmade.free x hx with hφ | hx
    · exact h.symbols_taken x (Term.freeVars_subset_symbols hφ)
    · exact hscope x hx
  · exact h.symbols_taken x (Term.boundNames_subset_symbols (hmade.bound x hx))

/-- What is made from a closed formula with names in use is tidy. -/
theorem Ledger.tidy {t : Term} {scope : List String} (h : s.Ledger φ ds) (hclosed : φ.Closed)
    (hscope : ∀ x ∈ scope, x ∈ s.names.taken) (hmade : t.MadeFrom φ (skolems ds) scope) :
    t.Tidy φ s.names scope where
  symbols_taken := h.symbols_mem_taken hscope hmade
  bound := hmade.bound
  free x hx := (hmade.free x hx).resolve_left (hclosed x)

/-- Sessions for a closed formula are hygienic after every run. -/
theorem hygienic_after (hclosed : φ.Closed) (rs : List Request) :
    ((ofFormula φ).after rs).Hygienic φ := by
  have h := ledger_after φ rs
  refine ⟨h.symbols_taken, fun e above hp => ?_, fun e above x hp hx => ?_⟩
  · exact h.tidy hclosed (h.scope_taken hp) (h.made e above hp)
  · have hd := h.introduced e ((Tableau.mem_entries_iff []).mpr ⟨above, hp⟩) x hx
    exact ⟨h.taken _ hd, h.fresh _ hd⟩

end Session

end SignedTableaux
