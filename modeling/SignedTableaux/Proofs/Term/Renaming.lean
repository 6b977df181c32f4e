import SignedTableaux.Proofs.Substitution.CaptureFree

/-!
# Renaming all names of a term

A function on names acts on a term by its action on every name in it, bound or free. It commutes
with putting a term in for a variable, as long as nothing is captured, neither before nor after.

## Main definitions

* `Term.mapNames` — the action of a function on names

## Main results

* `Term.mapNames_eq_self` — only the names that occur matter
* `Term.mapNames_substitute` — renaming an instance renames what was put in
-/

namespace SignedTableaux.Term

mutual

/-- The term with every name replaced by its image. -/
def mapNames (ρ : String → String) : Term → Term
  | .app k f args => .app k (ρ f) (mapNamesList ρ args)
  | .var x => .var (ρ x)
  | .not t => .not (t.mapNames ρ)
  | .binary c l r => .binary c (l.mapNames ρ) (r.mapNames ρ)
  | .quantified q x body => .quantified q (ρ x) (body.mapNames ρ)

/-- The terms with every name replaced by its image. -/
def mapNamesList (ρ : String → String) : List Term → List Term
  | [] => []
  | t :: ts => t.mapNames ρ :: mapNamesList ρ ts

end

variable {ρ : String → String} {t r : Term} {x : String}

theorem mapNamesList_eq_map (ρ : String → String) (ts : List Term) :
    mapNamesList ρ ts = ts.map (mapNames ρ) := by
  induction ts with
  | nil => rfl
  | cons t ts ih => rw [mapNamesList, ih, List.map_cons]

@[simp] theorem mapNames_app (k : SymbolKind) (f : String) (args : List Term) :
    (app k f args).mapNames ρ = app k (ρ f) (args.map (mapNames ρ)) :=
  congrArg (app k (ρ f)) (mapNamesList_eq_map ρ args)

@[simp] theorem mapNames_var : (var x).mapNames ρ = var (ρ x) := rfl

/-- A function that moves no name of a term leaves the term as it is. -/
theorem mapNames_eq_self (h : ∀ y ∈ t.symbols, ρ y = y) : t.mapNames ρ = t := by
  induction t with
  | app k f args ih =>
    have hargs : args.map (mapNames ρ) = args := by
      refine (List.map_congr_left fun arg harg => ?_).trans (List.map_id' args)
      exact ih arg harg fun y hy => h y ((mem_symbols_app k f args).mpr (.inr ⟨arg, harg, hy⟩))
    rw [mapNames_app, hargs, h f ((mem_symbols_app k f args).mpr (.inl rfl))]
  | var z => rw [mapNames_var, h z (by simp)]
  | not t ih => rw [mapNames, ih fun y hy => h y (by simpa using hy)]
  | binary c l s ihl ihs =>
    rw [mapNames, ihl fun y hy => h y (by simp [hy]), ihs fun y hy => h y (by simp [hy])]
  | quantified q z body ih =>
    rw [mapNames, h z (by simp), ih fun y hy => h y (by simp [hy])]

/-- Renaming an instance renames what was put in, if no name of the term itself is moved. -/
theorem mapNames_substitute (hfixed : ∀ y ∈ t.symbols, ρ y = y)
    (hcapture : (Substitution.single x r).CaptureFree t)
    (hcapture' : (Substitution.single x (r.mapNames ρ)).CaptureFree t) :
    (t.substitute x r).mapNames ρ = t.substitute x (r.mapNames ρ) := by
  induction t with
  | app k f args ih =>
    have hargs : ∀ arg ∈ args, (arg.substitute x r).mapNames ρ =
        arg.substitute x (r.mapNames ρ) := by
      intro arg harg
      refine ih arg harg (fun y hy => hfixed y ?_) (hcapture.arg harg) (hcapture'.arg harg)
      exact (mem_symbols_app k f args).mpr (.inr ⟨arg, harg, hy⟩)
    rw [substitute, substitute, Substitution.apply_app, Substitution.apply_app, mapNames_app,
      hfixed f (by simp), List.map_map]
    exact congrArg (app k f) (List.map_congr_left hargs)
  | var z =>
    rw [substitute, substitute, Substitution.apply_var, Substitution.apply_var,
      Substitution.get?_single, Substitution.get?_single]
    by_cases hz : z = x
    · rw [if_pos hz, if_pos hz]
      rfl
    · rw [if_neg hz, if_neg hz]
      exact mapNames_eq_self hfixed
  | not t ih =>
    have ht := ih (fun y hy => hfixed y (by simpa using hy)) hcapture.negated hcapture'.negated
    exact congrArg not ht
  | binary c l s ihl ihs =>
    have hl := ihl (fun y hy => hfixed y (by simp [hy])) hcapture.left hcapture'.left
    have hs := ihs (fun y hy => hfixed y (by simp [hy])) hcapture.right hcapture'.right
    exact congrArg₂ (binary c) hl hs
  | quantified q z body ih =>
    rw [substitute_quantified hcapture, substitute_quantified hcapture']
    by_cases hz : z = x
    · rw [if_pos hz, if_pos hz]
      exact mapNames_eq_self hfixed
    · have hbody := ih (fun y hy => hfixed y (by simp [hy])) hcapture.body hcapture'.body
      rw [if_neg hz, if_neg hz, mapNames, hfixed z (by simp), hbody]

end SignedTableaux.Term
