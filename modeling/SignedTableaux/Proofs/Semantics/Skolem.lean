import SignedTableaux.Proofs.Semantics.Substitution
import SignedTableaux.Proofs.Session.Hygiene

/-!
# Rules and structures

A rule keeps what it is applied to satisfiable. The alpha, beta and gamma rules do so in the same
structure. The delta rule needs a new function that chooses an instance of the body, one for all
values of the variables in scope; as its name is new, nothing else changes its meaning.

## Main definitions

* `Structure.withChoice` — a function symbol that chooses, where there is a choice
* `Expansion.holds` — the truth of what a rule adds
* `Structure.AgreesOn` — the same predicates, and the same functions of some names

## Main results

* `Structure.holds_skolem` — the instance that a new function chooses
* `Decomposition.exists_structure` — what a rule is applied to and what it adds hold together
-/

namespace SignedTableaux

universe u

variable {D : Type u}

namespace Structure

/-- Whether two structures have the same predicates and the same functions of the given names. -/
structure AgreesOn (M M' : Structure D) (known : String → Prop) : Prop where
  pred_eq : M.pred = M'.pred
  fn_eq : ∀ f, known f → M.fn f = M'.fn f

variable {M M' M'' : Structure D} {known known' : String → Prop}

namespace AgreesOn

theorem refl (M : Structure D) : M.AgreesOn M known :=
  ⟨rfl, fun _ _ => rfl⟩

theorem mono (h : M.AgreesOn M' known) (hknown : ∀ f, known' f → known f) :
    M.AgreesOn M' known' :=
  ⟨h.pred_eq, fun f hf => h.fn_eq f (hknown f hf)⟩

theorem trans (h : M.AgreesOn M' known) (h' : M'.AgreesOn M'' known) : M.AgreesOn M'' known :=
  ⟨h.pred_eq.trans h'.pred_eq, fun f hf => (h.fn_eq f hf).trans (h'.fn_eq f hf)⟩

end AgreesOn

variable [Nonempty D] {ρ : String → D}

theorem AgreesOn.holds_iff {s : Signed} (h : M.AgreesOn M' known)
    (hsymbols : ∀ f ∈ s.formula.symbols, known f) : s.holds M ρ ↔ s.holds M' ρ := by
  refine Signed.holds_congr (Term.holds_congr h.pred_eq (fun f hf => ?_) fun _ _ => rfl)
  exact h.fn_eq f (hsymbols f hf)

/-- The structure where `f` chooses a value that is related to its arguments, if there is one. -/
noncomputable def withChoice (M : Structure D) (f : String) (R : List D → D → Prop) :
    Structure D where
  fn := Function.update M.fn f fun ds => Classical.epsilon (R ds)
  pred := M.pred

theorem withChoice_agreesOn (M : Structure D) (f : String) (R : List D → D → Prop) :
    M.AgreesOn (M.withChoice f R) (· ≠ f) :=
  ⟨rfl, fun _ hg => (Function.update_of_ne hg _ _).symm⟩

/-- A function that chooses instances makes the instance at its own value true, wherever there is a
true one. Its arguments are the values of all variables that the instance may depend on, so what it
chooses for one assignment serves for all that agree with it on these variables. -/
theorem holds_skolem {q : Quantifier} {sign : Sign} {x f : String} {body : Term}
    {scope : List String} (hfree : ∀ y ∈ (Term.quantified q x body).freeVars, y ∈ scope)
    (hcapture : (Substitution.single x (.fn f (scope.map .var))).CaptureFree body)
    (hf : f ∉ body.symbols)
    (hsome : ∃ d, Signed.holds M (Function.update ρ x d) ⟨sign, body⟩) :
    Signed.holds (M.withChoice f fun ds d => ∃ ρ' : String → D, scope.map ρ' = ds ∧
      Signed.holds M (Function.update ρ' x d) ⟨sign, body⟩) ρ
        ⟨sign, body.substitute x (.fn f (scope.map .var))⟩ := by
  set R : List D → D → Prop := fun ds d => ∃ ρ' : String → D, scope.map ρ' = ds ∧
    Signed.holds M (Function.update ρ' x d) ⟨sign, body⟩ with hR
  have hvalue : (Term.fn f (scope.map .var)).value (M.withChoice f R) ρ =
      Classical.epsilon (R (scope.map ρ)) := by
    have hargs : (scope.map Term.var).map (Term.value (M.withChoice f R) ρ) = scope.map ρ := by
      rw [List.map_map]
      exact List.map_congr_left fun y _ => Term.value_var y
    rw [Term.value_fn, hargs]
    exact congrFun (Function.update_self f _ M.fn) (scope.map ρ)
  obtain ⟨ρ', hρ', hchosen⟩ : R (scope.map ρ) (Classical.epsilon (R (scope.map ρ))) := by
    obtain ⟨d, hd⟩ := hsome
    exact Classical.epsilon_spec (p := R (scope.map ρ)) ⟨d, ρ, rfl, hd⟩
  -- the choice was made under another assignment, which agrees on the variables in scope
  have hagree : ∀ y ∈ body.freeVars,
      Function.update ρ' x (Classical.epsilon (R (scope.map ρ))) y =
        Function.update ρ x (Classical.epsilon (R (scope.map ρ))) y := by
    intro y hy
    by_cases hyx : y = x
    · rw [hyx, Function.update_self, Function.update_self]
    · rw [Function.update_of_ne hyx, Function.update_of_ne hyx]
      exact List.map_inj_left.mp hρ' y (hfree y (by simp [hy, hyx]))
  have hbody : Signed.holds M (Function.update ρ x (Classical.epsilon (R (scope.map ρ))))
      ⟨sign, body⟩ :=
    (Signed.holds_congr (Term.holds_congr rfl (fun _ _ => rfl) hagree)).mp hchosen
  rw [Signed.holds_substitute_iff rfl hcapture, hvalue]
  refine ((M.withChoice_agreesOn f R).holds_iff fun g hg => ?_).mp hbody
  rintro rfl
  exact hf hg

end Structure

variable [Nonempty D]

/-- Whether all that a rule adds holds, or one of two alternatives. -/
def Expansion.holds (M : Structure D) (ρ : String → D) : Expansion → Prop
  | .linear first others => ∀ f ∈ first :: others, f.signed.holds M ρ
  | .branching left right => left.signed.holds M ρ ∨ right.signed.holds M ρ

/-- A rule keeps what it is applied to satisfiable. The structure changes only for the delta rule,
and there only at the name that the rule draws. -/
theorem Decomposition.exists_structure {φ : Term} {names names' : NameSupply} {scope : List String}
    {source : Signed} {d : Decomposition} {expansion : Expansion}
    (hd : source.decomposition? = some d) (htidy : source.formula.Tidy φ names scope)
    (hguards : names.Guards φ scope) (h : d.expand scope names = (.ok expansion, names'))
    (M : Structure D) :
    ∃ M' : Structure D,
      M.AgreesOn M' (fun f => d.rule = .delta → f ∈ names.taken ∨ f ∉ names'.taken) ∧
        ∀ ρ, source.holds M ρ → expansion.holds M' ρ := by
  cases d with
  | alpha first others =>
    obtain ⟨rfl, rfl⟩ : _ = expansion ∧ names = names' := by simpa [expand] using h
    refine ⟨M, .refl M, fun ρ hsource => ?_⟩
    have hparts := (Signed.holds_iff_of_decomposition? hd).mp hsource
    simpa [Expansion.holds, Decomposition.holds] using hparts
  | beta left right =>
    obtain ⟨rfl, rfl⟩ : _ = expansion ∧ names = names' := by simpa [expand] using h
    exact ⟨M, .refl M, fun ρ hsource => (Signed.holds_iff_of_decomposition? hd).mp hsource⟩
  | gamma sign x body =>
    obtain ⟨q, hq⟩ := Signed.formula_of_quantified hd (.inl rfl)
    rw [hq] at htidy
    obtain ⟨rfl, -⟩ := of_expand_gamma h
    refine ⟨M, .refl M, fun ρ hsource => ?_⟩
    have hall := (Signed.holds_iff_of_decomposition? hd).mp hsource
    have hinstance := hall (ρ (names.issue (Text.uppercase x)).1)
    have hcapture := htidy.captureFree_fresh hguards (Text.uppercase x)
    simp only [Expansion.holds, List.forall_mem_singleton]
    refine (Signed.holds_substitute_iff rfl hcapture).mpr ?_
    rw [Term.value_var]
    exact hinstance
  | delta sign x body =>
    obtain ⟨q, hq⟩ := Signed.formula_of_quantified hd (.inr rfl)
    rw [hq] at htidy
    obtain ⟨rfl, rfl⟩ := of_expand_delta h
    have hnew : (names.issue "f").1 ∉ body.symbols := fun hmem =>
      names.issue_not_mem "f" (htidy.symbols_taken _ (by simp [hmem]))
    -- the new function chooses an instance of the body that holds, if one does
    refine ⟨M.withChoice (names.issue "f").1 fun ds d => ∃ ρ : String → D, scope.map ρ = ds ∧
      Signed.holds M (Function.update ρ x d) ⟨sign, body⟩, ?_, fun ρ hsource => ?_⟩
    · refine (M.withChoice_agreesOn _ _).mono fun g hg => ?_
      rintro rfl
      rcases hg rfl with hg | hg
      · exact names.issue_not_mem "f" hg
      · exact hg ((names.mem_taken_issue "f").mpr (.inl rfl))
    · have hsome := (Signed.holds_iff_of_decomposition? hd).mp hsource
      simp only [Expansion.holds, List.forall_mem_singleton]
      exact Structure.holds_skolem htidy.free (htidy.captureFree_skolem hguards _) hnew hsome

end SignedTableaux
