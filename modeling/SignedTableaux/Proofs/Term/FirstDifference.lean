import SignedTableaux.Proofs.Term.Disagreement

/-!
# The first place where two terms differ

A place in a term is a path of positions among immediate subterms. Two terms that differ have one
first place where their heads differ: above it all heads agree, and left of it all is equal. That is
the place that the comparison of two terms finds. In particular two terms with the same head that
differ have a difference in some immediate subterms, so the comparison never has to stop at two
terms with the same head.

## Main definitions

* `Term.SameHead` — the same operator, name, bound name and number of immediate subterms
* `Term.subterm?` — the subterm at a path
* `Term.FirstDifference` — a path to different heads, with the same heads above and equal terms to
  the left

## Main results

* `Term.disagreement?_eq` — heads are compared first, then immediate subterms from the left
* `Term.disagreement?_eq_some_iff` — the comparison finds the first difference
* `Substitution.unify_firstDifference` — the common instance of two terms, or where their instances
  differ
-/

namespace SignedTableaux

namespace Term

/-! ### Heads -/

/-- What may stand at the head of a term. -/
inductive Operator where
  | symbol (kind : SymbolKind)
  | variable
  | not
  | binary (op : Connective)
  | quantifier (q : Quantifier)
deriving DecidableEq

/-- The operator at the head. -/
def operator : Term → Operator
  | .app k _ _ => .symbol k
  | .var _ => .variable
  | .not _ => .not
  | .binary c _ _ => .binary c
  | .quantified q _ _ => .quantifier q

/-- Whether two terms agree in all but their immediate subterms. -/
structure SameHead (s t : Term) : Prop where
  operator : s.operator = t.operator
  name : s.name? = t.name?
  bound : s.bound? = t.bound?
  arity : s.children.length = t.children.length

variable {s t a b : Term}

theorem sameHead_iff :
    s.SameHead t ↔ s.operator = t.operator ∧ s.name? = t.name? ∧ s.bound? = t.bound? ∧
      s.children.length = t.children.length :=
  ⟨fun ⟨operator, name, bound, arity⟩ => ⟨operator, name, bound, arity⟩,
    fun ⟨operator, name, bound, arity⟩ => ⟨operator, name, bound, arity⟩⟩

instance (s t : Term) : Decidable (s.SameHead t) :=
  decidable_of_iff' _ sameHead_iff

/-- Heads are compared first, and where they agree immediate subterms from the left. -/
theorem disagreement?_eq (s t : Term) :
    s.disagreement? t =
      if s.SameHead t then disagreementList? s.children t.children else some (s, t) := by
  cases s <;> cases t <;>
    simp [disagreement?, sameHead_iff, operator, name?, bound?, children, disagreementList?]

/-- In two lists of the same length, the first disagreement is that of the first terms that
differ. -/
theorem disagreementList?_eq_some_iff {as bs : List Term} {d : Term × Term} :
    disagreementList? as bs = some d ↔
      ∃ i a b, as[i]? = some a ∧ bs[i]? = some b ∧ as.take i = bs.take i ∧
        a.disagreement? b = some d := by
  induction as generalizing bs with
  | nil => simp [disagreementList?]
  | cons a as ih =>
    cases bs with
    | nil => simp [disagreementList?]
    | cons b bs =>
      rw [disagreementList?, Option.or_eq_some_iff, disagreement?_eq_none_iff, ih]
      constructor
      · rintro (hd | ⟨rfl, i, a', b', ha, hb, hleft, hd⟩)
        · exact ⟨0, a, b, rfl, rfl, rfl, hd⟩
        · exact ⟨i + 1, a', b', ha, hb, congrArg (a :: ·) hleft, hd⟩
      · rintro ⟨_ | i, a', b', ha, hb, hleft, hd⟩
        · obtain rfl : a = a' := Option.some.inj ha
          obtain rfl : b = b' := Option.some.inj hb
          exact .inl hd
        · obtain ⟨rfl, htail⟩ : a = b ∧ as.take i = bs.take i := by simpa using hleft
          exact .inr ⟨rfl, i, a', b', ha, hb, htail, hd⟩

/-! ### Paths -/

/-- The subterm at a path of positions among immediate subterms. -/
def subterm? (t : Term) : List Nat → Option Term
  | [] => some t
  | i :: p => t.children[i]?.bind fun child => child.subterm? p

/-- Whether `p` leads to the first place where `s` and `t` have different heads, with the subterms
`a` and `b` there: at every place above, the heads agree, and the subterms further left are
equal. -/
structure FirstDifference (s t : Term) (p : List Nat) (a b : Term) : Prop where
  left : s.subterm? p = some a
  right : t.subterm? p = some b
  differ : ¬ a.SameHead b
  above : ∀ q i rest, p = q ++ i :: rest → ∃ u v, s.subterm? q = some u ∧ t.subterm? q = some v ∧
    u.SameHead v ∧ u.children.take i = v.children.take i

theorem firstDifference_nil : s.FirstDifference t [] a b ↔ s = a ∧ t = b ∧ ¬ s.SameHead t := by
  constructor
  · rintro ⟨hs, ht, hdiffer, -⟩
    obtain rfl := Option.some.inj hs
    obtain rfl := Option.some.inj ht
    exact ⟨rfl, rfl, hdiffer⟩
  · rintro ⟨rfl, rfl, hdiffer⟩
    exact ⟨rfl, rfl, hdiffer, by simp⟩

theorem firstDifference_cons {i : Nat} {p : List Nat} :
    s.FirstDifference t (i :: p) a b ↔ s.SameHead t ∧ s.children.take i = t.children.take i ∧
      ∃ s' t', s.children[i]? = some s' ∧ t.children[i]? = some t' ∧
        s'.FirstDifference t' p a b := by
  constructor
  · rintro ⟨hs, ht, hdiffer, habove⟩
    obtain ⟨s', hs', hs⟩ := Option.bind_eq_some_iff.mp hs
    obtain ⟨t', ht', ht⟩ := Option.bind_eq_some_iff.mp ht
    -- the root is above the place, and so are the places of the child's path, one step down
    obtain ⟨u, v, hu, hv, hhead, hleft⟩ := habove [] i p rfl
    obtain rfl := Option.some.inj hu
    obtain rfl := Option.some.inj hv
    refine ⟨hhead, hleft, s', t', hs', ht', hs, ht, hdiffer, fun q j rest hp => ?_⟩
    obtain ⟨u, v, hu, hv, hhead⟩ := habove (i :: q) j rest (by rw [hp, List.cons_append])
    rw [subterm?, hs', Option.bind_some] at hu
    rw [subterm?, ht', Option.bind_some] at hv
    exact ⟨u, v, hu, hv, hhead⟩
  · rintro ⟨hhead, hleft, s', t', hs', ht', hs, ht, hdiffer, habove⟩
    refine ⟨?_, ?_, hdiffer, fun q j rest hp => ?_⟩
    · rw [subterm?, hs', Option.bind_some, hs]
    · rw [subterm?, ht', Option.bind_some, ht]
    · cases q with
      | nil =>
        obtain ⟨rfl, rfl⟩ := List.cons.inj hp
        exact ⟨s, t, rfl, rfl, hhead, hleft⟩
      | cons k q =>
        obtain ⟨rfl, rfl⟩ := List.cons.inj hp
        obtain ⟨u, v, hu, hv, hhead⟩ := habove q j rest rfl
        refine ⟨u, v, ?_, ?_, hhead⟩
        · rw [subterm?, hs', Option.bind_some, hu]
        · rw [subterm?, ht', Option.bind_some, hv]

/-! ### What the comparison finds -/

/-- A property that passes from the immediate subterms to the term holds of every term. -/
theorem children_induction {P : Term → Prop} (h : ∀ t, (∀ child ∈ t.children, P child) → P t)
    (t : Term) : P t := by
  induction t with
  | app k f args ih => exact h _ ih
  | var x => exact h _ (by simp [children])
  | not t ih => exact h _ (by simpa [children] using ih)
  | binary c l r ihl ihr => exact h _ (by simpa [children] using ⟨ihl, ihr⟩)
  | quantified q x body ih => exact h _ (by simpa [children] using ih)

/-- The comparison finds the first difference. -/
theorem disagreement?_eq_some_iff :
    s.disagreement? t = some (a, b) ↔ ∃ p, s.FirstDifference t p a b := by
  induction s using children_induction generalizing t with
  | h s ih =>
    rw [disagreement?_eq]
    split
    · next hhead =>
      rw [disagreementList?_eq_some_iff]
      constructor
      · rintro ⟨i, s', t', hs', ht', hleft, hd⟩
        obtain ⟨p, hp⟩ := (ih s' (List.mem_of_getElem? hs')).mp hd
        exact ⟨i :: p, firstDifference_cons.mpr ⟨hhead, hleft, s', t', hs', ht', hp⟩⟩
      · rintro ⟨_ | ⟨i, p⟩, hp⟩
        · exact absurd hhead (firstDifference_nil.mp hp).2.2
        · obtain ⟨-, hleft, s', t', hs', ht', hp⟩ := firstDifference_cons.mp hp
          exact ⟨i, s', t', hs', ht', hleft, (ih s' (List.mem_of_getElem? hs')).mpr ⟨p, hp⟩⟩
    · next hhead =>
      constructor
      · intro hd
        obtain ⟨rfl, rfl⟩ := Prod.mk.inj (Option.some.inj hd)
        exact ⟨[], firstDifference_nil.mpr ⟨rfl, rfl, hhead⟩⟩
      · rintro ⟨_ | ⟨i, p⟩, hp⟩
        · obtain ⟨rfl, rfl, -⟩ := firstDifference_nil.mp hp
          rfl
        · exact absurd (firstDifference_cons.mp hp).1 hhead

/-- Two terms with the same head that differ have a difference in some immediate subterms. -/
theorem SameHead.exists_disagreement (h : s.SameHead t) (hne : s ≠ t) :
    ∃ (i : Nat) (s' t' : Term), s.children[i]? = some s' ∧ t.children[i]? = some t' ∧
      s'.disagreement? t' = s.disagreement? t := by
  obtain ⟨d, hd⟩ := Option.ne_none_iff_exists'.mp (mt disagreement?_eq_none_iff.mp hne)
  rw [hd]
  rw [disagreement?_eq, if_pos h, disagreementList?_eq_some_iff] at hd
  obtain ⟨i, s', t', hs', ht', -, hd⟩ := hd
  exact ⟨i, s', t', hs', ht', hd⟩

end Term

/-- Two terms have a common instance just if their instances are equal. Otherwise both instances are
returned with the subterms at the first place where they differ; and terms with the same head that
differ are never returned, since they differ in some immediate subterms. -/
theorem Substitution.unify_firstDifference (σ : Substitution) (s t : Term) :
    (σ.unify s t = .ok (σ.apply s) ↔ σ.apply s = σ.apply t) ∧
      (σ.apply s ≠ σ.apply t → ∃ a b, σ.unify s t = .error ⟨σ.apply s, σ.apply t, (a, b)⟩ ∧
        (∃ p, (σ.apply s).FirstDifference (σ.apply t) p a b) ∧
          ∀ p a' b', (σ.apply s).FirstDifference (σ.apply t) p a' b' → a' = a ∧ b' = b) ∧
      ∀ u v : Term, u ≠ v → u.SameHead v → ∃ (i : Nat) (u' v' : Term), u.children[i]? = some u' ∧
        v.children[i]? = some v' ∧ u'.disagreement? v' = u.disagreement? v := by
  refine ⟨by simp [unify_eq_ok_iff], fun hne => ?_, fun u v hne h => h.exists_disagreement hne⟩
  obtain ⟨⟨a, b⟩, hd⟩ := Option.ne_none_iff_exists'.mp (mt Term.disagreement?_eq_none_iff.mp hne)
  refine ⟨a, b, ?_, Term.disagreement?_eq_some_iff.mp hd, fun p a' b' hp => ?_⟩
  · rw [unify, hd]
  · have hd' := Term.disagreement?_eq_some_iff.mpr ⟨p, hp⟩
    exact Prod.mk.inj (Option.some.inj (hd'.symm.trans hd))

/-- With `a` for `X`, the formulas `P(f(X)) & Q(X, X)` and `P(f(a)) & Q(a, g(X))` first differ at
the second argument of `Q`. -/
theorem Substitution.unify_secondArgument :
    let σ := single "X" (.fn "a" [])
    let s := Term.binary .and (.pred "P" [.fn "f" [.var "X"]]) (.pred "Q" [.var "X", .var "X"])
    let t := Term.binary .and (.pred "P" [.fn "f" [.fn "a" []]])
      (.pred "Q" [.fn "a" [], .fn "g" [.var "X"]])
    σ.apply s ≠ σ.apply t ∧
      (σ.apply s).FirstDifference (σ.apply t) [1, 1] (.fn "a" []) (.fn "g" [.fn "a" []]) ∧
        σ.unify s t =
          .error ⟨σ.apply s, σ.apply t, (.fn "a" [], .fn "g" [.fn "a" []])⟩ := by
  intro σ s t
  have hne : σ.apply s ≠ σ.apply t := by decide
  have hfirst :
      (σ.apply s).FirstDifference (σ.apply t) [1, 1] (.fn "a" []) (.fn "g" [.fn "a" []]) :=
    Term.firstDifference_cons.mpr ⟨by decide, by decide, _, _, rfl, rfl,
      Term.firstDifference_cons.mpr ⟨by decide, by decide, _, _, rfl, rfl,
        Term.firstDifference_nil.mpr ⟨by decide, by decide, by decide⟩⟩⟩
  obtain ⟨a, b, hunify, -, hunique⟩ := (unify_firstDifference σ s t).2.1 hne
  obtain ⟨rfl, rfl⟩ := hunique [1, 1] _ _ hfirst
  exact ⟨hne, hfirst, hunify⟩

end SignedTableaux
