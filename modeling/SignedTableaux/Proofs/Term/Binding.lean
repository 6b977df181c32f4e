import SignedTableaux.Proofs.Formula.Instances

/-!
# Laws of binding

Binding names only turns constants into variables of the same name. So the printed form stays, and
what is bound depends on the names in scope alone: neither on their order nor on how often a name
stands there, and not on the quantifiers that put names on the stack and take them off again. The
variables that become free are the constants with a name in scope, apart from the occurrences that a
quantifier within the term binds.

## Main definitions

* `Term.HasFreeConstant` — a constant occurs where no quantifier binds its name

## Main results

* `Term.run_bindOnStack` — the stack is left as it was, and the names are those bound in its scope
* `Term.render_bindNames` — the printed form stays
* `Term.mem_freeVars_bindNames` — the free variables after binding
* `Term.bindNames_laws` — all laws together
-/

namespace SignedTableaux.Term

variable {t : Term} {scope : List String} {x c : String}

/-! ### The stack -/

theorem run_bind_of_run {α β : Type} {first : StateM (List String) α}
    {next : α → StateM (List String) β} {scope' : List String} {a : α}
    (h : first.run scope = (a, scope')) : (first >>= next).run scope = (next a).run scope' := by
  rw [StateT.run_bind, h]
  rfl

theorem run_bindListOnStack {args : List Term}
    (h : ∀ arg ∈ args, arg.bindOnStack.run scope = (arg.bindNames scope, scope)) :
    (bindListOnStack args).run scope = (args.map (bindNames scope), scope) := by
  induction args with
  | nil => rfl
  | cons arg args ih =>
    obtain ⟨harg, hargs⟩ := List.forall_mem_cons.mp h
    rw [bindListOnStack, run_bind_of_run harg, run_bind_of_run (ih hargs)]
    rfl

/-- A walk through a term binds the names on the stack, and leaves the stack as it was. -/
theorem run_bindOnStack (t : Term) (scope : List String) :
    t.bindOnStack.run scope = (t.bindNames scope, scope) := by
  induction t generalizing scope with
  | app k f args ih =>
    by_cases hconst : k = .function ∧ args = []
    · obtain ⟨rfl, rfl⟩ := hconst
      rfl
    · have hargs := run_bindListOnStack fun arg harg => ih arg harg scope
      have hkept : ¬ (k = .function ∧ args = [] ∧ f ∈ scope) := fun h => hconst ⟨h.1, h.2.1⟩
      rw [bindOnStack, run_bind_of_run hargs, bindNames_app, if_neg hkept]
      · rfl
      · exact fun hk hnil => hconst ⟨hk, hnil⟩
  | var y => rfl
  | not t ih =>
    rw [bindOnStack, run_bind_of_run (ih scope), bindNames]
    rfl
  | binary c l r ihl ihr =>
    rw [bindOnStack, run_bind_of_run (ihl scope), run_bind_of_run (ihr scope), bindNames]
    rfl
  | quantified q z body ih =>
    have hpush : (modify (· ++ [z]) : StateM (List String) PUnit).run scope = (⟨⟩, scope ++ [z]) :=
      rfl
    have hpop :
        (modify List.dropLast : StateM (List String) PUnit).run (scope ++ [z]) = (⟨⟩, scope) :=
      congrArg (Prod.mk _) List.dropLast_concat
    -- on the stack the name comes last in the scope, which makes no difference
    have hscope : body.bindNames (scope ++ [z]) = body.bindNames (z :: scope) :=
      bindNames_congr fun y => by rw [List.mem_append, List.mem_singleton, List.mem_cons, or_comm]
    rw [bindOnStack, run_bind_of_run hpush, run_bind_of_run (ih (scope ++ [z])),
      run_bind_of_run hpop, bindNames, hscope]
    rfl

/-! ### The printed form -/

theorem precedence_bindNames (t : Term) (scope : List String) :
    (t.bindNames scope).precedence = t.precedence := by
  cases t with
  | app k f args =>
    rw [bindNames_app]
    split <;> rfl
  | var y => rw [bindNames]
  | not t => rfl
  | binary op l r => rfl
  | quantified q z body => rfl

theorem renderRest_map {f : Term → Term} {args : List Term}
    (h : ∀ arg ∈ args, (f arg).render = arg.render) :
    renderRest (args.map f) = renderRest args := by
  induction args with
  | nil => rfl
  | cons arg args ih =>
    obtain ⟨harg, hargs⟩ := List.forall_mem_cons.mp h
    rw [List.map_cons, renderRest, renderRest, harg, ih hargs]

theorem render_bindNames (t : Term) (scope : List String) :
    (t.bindNames scope).render = t.render := by
  induction t generalizing scope with
  | app k f args ih =>
    have hargs : ∀ arg ∈ args, (arg.bindNames scope).render = arg.render :=
      fun arg harg => ih arg harg scope
    rw [bindNames_app]
    split
    · next hbound =>
      rw [hbound.2.1, render, render]
    · cases args with
      | nil => rw [List.map_nil]
      | cons arg args =>
        obtain ⟨harg, hrest⟩ := List.forall_mem_cons.mp hargs
        rw [List.map_cons, render, render, harg, renderRest_map hrest]
  | var y => rw [bindNames]
  | not t ih =>
    rw [bindNames, render, render, enclose, enclose, precedence_bindNames, ih]
  | binary op l r ihl ihr =>
    rw [bindNames, render, render]
    simp only [enclose, precedence_bindNames, ihl, ihr]
  | quantified q z body ih => rw [bindNames, render, render, ih]

/-! ### Free variables -/

/-- Whether a constant occurs in a term under no quantifier that binds its name. -/
inductive HasFreeConstant (c : String) : Term → Prop
  | constant : HasFreeConstant c (.fn c [])
  | arg {k : SymbolKind} {f : String} {args : List Term} {arg : Term} (hmem : arg ∈ args)
      (h : HasFreeConstant c arg) : HasFreeConstant c (.app k f args)
  | not {t : Term} (h : HasFreeConstant c t) : HasFreeConstant c (.not t)
  | left {op : Connective} {l r : Term} (h : HasFreeConstant c l) :
      HasFreeConstant c (.binary op l r)
  | right {op : Connective} {l r : Term} (h : HasFreeConstant c r) :
      HasFreeConstant c (.binary op l r)
  | body {q : Quantifier} {y : String} {body : Term} (hne : c ≠ y) (h : HasFreeConstant c body) :
      HasFreeConstant c (.quantified q y body)

theorem hasFreeConstant_app {k : SymbolKind} {f : String} {args : List Term} :
    (app k f args).HasFreeConstant c ↔
      (k = .function ∧ args = [] ∧ c = f) ∨ ∃ arg ∈ args, arg.HasFreeConstant c := by
  constructor
  · rintro (_ | ⟨hmem, h⟩)
    · exact .inl ⟨rfl, rfl, rfl⟩
    · exact .inr ⟨_, hmem, h⟩
  · rintro (⟨rfl, rfl, rfl⟩ | ⟨arg, hmem, h⟩)
    · exact .constant
    · exact .arg hmem h

theorem not_hasFreeConstant_var : ¬ (var x).HasFreeConstant c := by
  intro h
  cases h

theorem hasFreeConstant_not : (not t).HasFreeConstant c ↔ t.HasFreeConstant c :=
  ⟨fun | .not h => h, .not⟩

theorem hasFreeConstant_binary {op : Connective} {l r : Term} :
    (binary op l r).HasFreeConstant c ↔ l.HasFreeConstant c ∨ r.HasFreeConstant c :=
  ⟨fun | .left h => .inl h | .right h => .inr h, fun h => h.elim .left .right⟩

theorem hasFreeConstant_quantified {q : Quantifier} {y : String} {body : Term} :
    (quantified q y body).HasFreeConstant c ↔ c ≠ y ∧ body.HasFreeConstant c :=
  ⟨fun | .body hne h => ⟨hne, h⟩, fun h => .body h.1 h.2⟩

/-- Binding makes free variables of the constants that have a name in scope and are not bound
already. -/
theorem mem_freeVars_bindNames :
    x ∈ (t.bindNames scope).freeVars ↔ x ∈ t.freeVars ∨ x ∈ scope ∧ t.HasFreeConstant x := by
  induction t generalizing scope with
  | app k f args ih =>
    rw [bindNames_app, mem_freeVars_app, hasFreeConstant_app]
    split
    · next hbound =>
      obtain ⟨hk, rfl, hf⟩ := hbound
      rw [mem_freeVars_var]
      constructor
      · rintro rfl
        exact .inr ⟨hf, .inl ⟨hk, rfl, rfl⟩⟩
      · rintro (⟨arg, harg, -⟩ | ⟨-, ⟨-, -, rfl⟩ | ⟨arg, harg, -⟩⟩)
        · exact absurd harg List.not_mem_nil
        · rfl
        · exact absurd harg List.not_mem_nil
    · next hkept =>
      have hnot : ¬ (x ∈ scope ∧ k = .function ∧ args = [] ∧ x = f) := by
        rintro ⟨hx, hk, hnil, rfl⟩
        exact hkept ⟨hk, hnil, hx⟩
      have hargs : (∃ arg ∈ args.map (bindNames scope), x ∈ arg.freeVars) ↔
          ∃ arg ∈ args, x ∈ arg.freeVars ∨ x ∈ scope ∧ arg.HasFreeConstant x := by
        simp only [List.mem_map, exists_exists_and_eq_and]
        exact exists_congr fun arg => and_congr_right fun harg => ih arg harg
      rw [mem_freeVars_app, hargs]
      grind
  | var y =>
    rw [bindNames]
    exact ⟨.inl, fun h => h.resolve_right fun hvar => not_hasFreeConstant_var hvar.2⟩
  | not t ih => rw [bindNames, mem_freeVars_not, ih, mem_freeVars_not, hasFreeConstant_not]
  | binary op l r ihl ihr =>
    rw [bindNames, mem_freeVars_binary, ihl, ihr, mem_freeVars_binary, hasFreeConstant_binary]
    tauto
  | quantified q y body ih =>
    rw [bindNames, mem_freeVars_quantified, ih, mem_freeVars_quantified, hasFreeConstant_quantified,
      List.mem_cons]
    tauto

/-! ### All laws -/

/-- Binding leaves the stack of names as it was. To bind in two scopes, one after the other, is to
bind in both together, the order of the names and their repetitions do not matter, the printed form
stays, and what becomes free are the constants with a name in scope that no quantifier of the term
binds. -/
theorem bindNames_laws (t : Term) (scope scope' : List String) :
    t.bindOnStack.run scope = (t.bindNames scope, scope) ∧
      (t.bindNames scope).bindNames scope' = t.bindNames (scope ++ scope') ∧
      (t.bindNames scope).bindNames scope = t.bindNames scope ∧
      ((∀ x, x ∈ scope ↔ x ∈ scope') → t.bindNames scope = t.bindNames scope') ∧
      (t.bindNames scope).render = t.render ∧
      ∀ x, x ∈ (t.bindNames scope).freeVars ↔
        x ∈ t.freeVars ∨ x ∈ scope ∧ t.HasFreeConstant x := by
  refine ⟨t.run_bindOnStack scope, t.bindNames_bindNames scope scope', ?_, bindNames_congr,
    t.render_bindNames scope, fun x => mem_freeVars_bindNames⟩
  rw [bindNames_bindNames]
  exact bindNames_congr fun x => by rw [List.mem_append, or_self]

/-- The term `P(x, x(y)) & (forall x. Q(x, z))`, before its names are bound. -/
def sharedName : Term :=
  .binary .and (.pred "P" [.fn "x" [], .fn "x" [.fn "y" []]])
    (.quantified .universal "x" (.pred "Q" [.fn "x" [], .fn "z" []]))

/-- With `x` and `y` in scope, where `x` stands twice: the first `x` and `y` become free variables,
the function `x` stays, and the second constant `x` is bound by its quantifier. -/
theorem bindNames_laws_sharedName :
    (∀ x, x ∈ ["x", "y", "x"] ↔ x ∈ ["y", "x"]) ∧
      sharedName.bindNames ["x", "y", "x"] = sharedName.bindNames ["y", "x"] ∧
      (sharedName.bindNames ["y", "x"]).freeVars.toList = ["x", "y"] ∧
      sharedName.HasFreeConstant "x" ∧ sharedName.HasFreeConstant "y" := by
  have hscope : ∀ x, x ∈ ["x", "y", "x"] ↔ x ∈ ["y", "x"] := fun x => by
    simp only [List.mem_cons, List.not_mem_nil, or_false]
    tauto
  have hfree : (sharedName.bindNames ["y", "x"]).freeVars.toList = ["x", "y"] := by decide +kernel
  obtain ⟨-, -, -, -, -, hvars⟩ := bindNames_laws sharedName ["y", "x"] []
  have hconstant {x : String} (hx : x ∈ ["x", "y"]) : sharedName.HasFreeConstant x := by
    have hclosed : x ∉ sharedName.freeVars := by
      have hnone : sharedName.freeVars.toList = [] := by decide +kernel
      rw [NameSet.mem_def, hnone]
      exact List.not_mem_nil
    rw [← hfree, ← NameSet.mem_def] at hx
    exact (((hvars x).mp hx).resolve_left hclosed).2
  exact ⟨hscope, (bindNames_laws sharedName ["x", "y", "x"] ["y", "x"]).2.2.2.1 hscope, hfree,
    hconstant List.mem_cons_self, hconstant (List.mem_cons_of_mem _ List.mem_cons_self)⟩

end SignedTableaux.Term
