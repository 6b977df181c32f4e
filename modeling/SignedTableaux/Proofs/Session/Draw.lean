import SignedTableaux.Proofs.FreshNames
import SignedTableaux.Proofs.Session.Run
import SignedTableaux.Proofs.Substitution.CaptureFree

/-!
# Names that rules draw

The gamma rule draws a variable and the delta rule a function, each for the one entry that it adds.
Both put an instance of a quantified formula into the tableau; all other rules add parts of a
formula and draw nothing.

## Main definitions

* `Term.MadeFrom` — where the names of a term come from
* `Decomposition.IsOf` — how a decomposition comes from a formula
* `Session.Draw`, `Session.drawn` — a drawn name with its rule and its entry, and those of a run
* `Session.Growth.Draws` — what a rule application draws

## Main results

* `Term.MadeFrom.substitute` — an instance of a quantified formula has no names but its own and
  those that are put in
* `Session.Growth.draws_spec` — a rule application draws nothing or one name
-/

namespace SignedTableaux

/-! ### Where the names of a term come from -/

/-- Where the names of a term come from: binders and predicates from `φ`, functions from `φ` or from
`skolems`, and free variables from `φ` or from `scope`. -/
structure Term.MadeFrom (t φ : Term) (skolems scope : List String) : Prop where
  bound : ∀ x ∈ t.boundNames, x ∈ φ.boundNames
  predicates : ∀ p ∈ t.symbolsOf .predicate, p ∈ φ.symbolsOf .predicate
  functions : ∀ f ∈ t.symbolsOf .function, f ∈ φ.symbolsOf .function ∨ f ∈ skolems
  free : ∀ x ∈ t.freeVars, x ∈ φ.freeVars ∨ x ∈ scope

/-- Where binders come from `φ`, only its symbols can be captured. -/
theorem Substitution.captureFree_of_bound {φ t r : Term} {x : String}
    (hbound : ∀ z ∈ t.boundNames, z ∈ φ.boundNames) (hr : ∀ z ∈ r.freeVars, z ∉ φ.symbols) :
    (Substitution.single x r).CaptureFree t :=
  captureFree_single fun z hz hmem => hr z hmem (Term.boundNames_subset_symbols (hbound z hz))

namespace Term.MadeFrom

variable {t φ : Term} {skolems skolems' scope scope' : List String}

theorem refl (φ : Term) : φ.MadeFrom φ [] [] where
  bound _ hx := hx
  predicates _ hp := hp
  functions _ hf := .inl hf
  free _ hx := .inl hx

theorem mono (h : t.MadeFrom φ skolems scope) (hskolems : skolems ⊆ skolems')
    (hscope : scope ⊆ scope') : t.MadeFrom φ skolems' scope' where
  bound := h.bound
  predicates := h.predicates
  functions f hf := (h.functions f hf).imp_right (@hskolems f)
  free x hx := (h.free x hx).imp_right (@hscope x)

theorem negated (h : (Term.not t).MadeFrom φ skolems scope) : t.MadeFrom φ skolems scope where
  bound x hx := h.bound x (by simpa using hx)
  predicates p hp := h.predicates p (by simpa using hp)
  functions f hf := h.functions f (by simpa using hf)
  free x hx := h.free x (by simpa using hx)

variable {c : Connective} {l r : Term}

theorem left (h : (Term.binary c l r).MadeFrom φ skolems scope) : l.MadeFrom φ skolems scope where
  bound x hx := h.bound x (by simp [hx])
  predicates p hp := h.predicates p (by simp [hp])
  functions f hf := h.functions f (by simp [hf])
  free x hx := h.free x (by simp [hx])

theorem right (h : (Term.binary c l r).MadeFrom φ skolems scope) : r.MadeFrom φ skolems scope where
  bound x hx := h.bound x (by simp [hx])
  predicates p hp := h.predicates p (by simp [hp])
  functions f hf := h.functions f (by simp [hf])
  free x hx := h.free x (by simp [hx])

/-- An instance of the body of a quantifier. Nothing is captured, as the variables of what is put in
are no symbols of `φ`. -/
theorem substitute {q : Quantifier} {x : String}
    (h : (Term.quantified q x t).MadeFrom φ skolems scope) (hskolems : skolems ⊆ skolems')
    (hscope : scope ⊆ scope') (hr : r.MadeFrom φ skolems' scope')
    (hfree : ∀ z ∈ r.freeVars, z ∉ φ.symbols) :
    (t.substitute x r).MadeFrom φ skolems' scope' := by
  have hbound : ∀ z ∈ t.boundNames, z ∈ φ.boundNames := fun z hz => h.bound z (by simp [hz])
  have hcapture : (Substitution.single x r).CaptureFree t :=
    Substitution.captureFree_of_bound hbound hfree
  refine ⟨fun y hy => ?_, fun p hp => ?_, fun f hf => ?_, fun y hy => ?_⟩
  · exact (mem_boundNames_substitute hcapture hy).elim (hbound y) (hr.bound y)
  · rcases mem_symbolsOf_substitute hcapture hp with hp | hp
    · exact h.predicates p (by simpa using hp)
    · exact hr.predicates p hp
  · rcases mem_symbolsOf_substitute hcapture hf with hf | hf
    · exact (h.functions f (by simpa using hf)).imp_right (@hskolems f)
    · exact hr.functions f hf
  · rcases mem_freeVars_substitute hcapture hy with ⟨hy, hne⟩ | hy
    · exact (h.free y (by simp [hy, hne])).imp_right (@hscope y)
    · exact hr.free y hy

end Term.MadeFrom

/-! ### What a rule adds -/

/-- The parts of a signed formula that is no quantifier. -/
def Decomposition.parts : Decomposition → List Signed
  | .alpha first others => first :: others
  | .beta left right => [left, right]
  | .gamma .. | .delta .. => []

/-- Whether a rule draws a name. -/
def Rule.drawsName (rule : Rule) : Bool :=
  rule = .gamma || rule = .delta

/-- How a decomposition comes from a formula: the operands of a connective are its parts, and a
quantifier has none but draws a name. -/
inductive Decomposition.IsOf (d : Decomposition) : Term → Prop
  | not {t : Term} {sign : Sign} (hparts : d.parts = [⟨sign, t⟩])
      (hrule : d.rule.drawsName = false) : d.IsOf (.not t)
  | binary {c : Connective} {l r : Term} {left right : Sign}
      (hparts : d.parts = [⟨left, l⟩, ⟨right, r⟩]) (hrule : d.rule.drawsName = false) :
      d.IsOf (.binary c l r)
  | quantified {q : Quantifier} {x : String} {body : Term} (hparts : d.parts = [])
      (hrule : d.rule.drawsName = true) : d.IsOf (.quantified q x body)

theorem Signed.isOf_of_decomposition? {sign : Sign} {t : Term} {d : Decomposition}
    (h : (Signed.mk sign t).decomposition? = some d) : d.IsOf t := by
  cases t with
  | app k f args => simp [decomposition?] at h
  | var x => simp [decomposition?] at h
  | not t =>
    obtain rfl := Option.some.inj h
    exact .not rfl rfl
  | binary c l r =>
    cases sign <;> cases c <;> obtain rfl := Option.some.inj h <;> exact .binary rfl rfl
  | quantified q x body =>
    cases sign <;> cases q <;> obtain rfl := Option.some.inj h <;> exact .quantified rfl rfl

theorem Signed.madeFrom_parts {s : Signed} {d : Decomposition} {φ : Term}
    {skolems scope : List String} (h : s.decomposition? = some d)
    (hmade : s.formula.MadeFrom φ skolems scope) :
    ∀ p ∈ d.parts, p.formula.MadeFrom φ skolems scope := by
  obtain ⟨sign, t⟩ := s
  cases isOf_of_decomposition? h with
  | not hparts => simpa [hparts] using hmade.negated
  | binary hparts => simpa [hparts] using ⟨hmade.left, hmade.right⟩
  | quantified hparts => simp [hparts]

theorem Signed.formula_of_quantified {s : Signed} {d : Decomposition} {sign : Sign} {x : String}
    {body : Term} (h : s.decomposition? = some d)
    (hd : d = .gamma sign x body ∨ d = .delta sign x body) :
    ∃ q, s.formula = .quantified q x body := by
  obtain ⟨sign', t⟩ := s
  cases t with
  | app k f args => simp [decomposition?] at h
  | var y => simp [decomposition?] at h
  | not t =>
    obtain rfl := Option.some.inj h
    simp at hd
  | binary c l r =>
    cases sign' <;> cases c <;> obtain rfl := Option.some.inj h <;> simp at hd
  | quantified q y body' =>
    refine ⟨q, ?_⟩
    cases sign' <;> cases q <;> obtain rfl := Option.some.inj h <;> simp_all

/-- Whether an entry comes from a rule that draws a name. -/
def Entry.isNamed (e : Entry) : Bool :=
  e.origin.any (·.rule.drawsName)

/-- Whether a node holds an entry that comes from a rule that draws a name. -/
def Node.isNamed (node : Node) : Bool :=
  node.asEntry.any Entry.isNamed

/-- The rules that draw no name add the parts. -/
theorem Decomposition.of_expand_parts {d : Decomposition} {scope : List String}
    {names names' : NameSupply} {expansion : Expansion} (hrule : d.rule.drawsName = false)
    (h : d.expand scope names = (.ok expansion, names')) :
    expansion.fragments = d.parts.map (fun p => ⟨p, none⟩) ∧ names' = names := by
  cases d with
  | alpha first others =>
    obtain ⟨rfl, rfl⟩ : _ = expansion ∧ names = names' := by simpa [expand] using h
    exact ⟨rfl, rfl⟩
  | beta left right =>
    obtain ⟨rfl, rfl⟩ : _ = expansion ∧ names = names' := by simpa [expand] using h
    exact ⟨rfl, rfl⟩
  | gamma sign x body => cases hrule
  | delta sign x body => cases hrule

namespace Session

/-- A name that a rule drew, with the entry that it was drawn for. -/
structure Draw where
  rule : Rule
  entry : NodeId
  name : String
deriving DecidableEq

namespace Draw

/-- What is put in for the bound name, where `scope` lists the variables introduced above. -/
def image (d : Draw) (scope : List String) : Term :=
  if d.rule = .gamma then .var d.name else .fn d.name (scope.map .var)

/-- The variable that the entry introduces. -/
def introduced (d : Draw) : Option String :=
  if d.rule = .gamma then some d.name else none

/-- Whether the name was drawn for entry `e`, below the entries `above`: it is the instance of a
quantified entry above it at this name. -/
def IsFor (d : Draw) (e : Entry) (above : List Entry) : Prop :=
  e.id = d.entry ∧ e.introduced = d.introduced ∧
    ∃ source ∈ above, e.origin = some ⟨d.rule, source.id⟩ ∧
      ∃ q x body, source.signed.formula = .quantified q x body ∧
        e.signed.formula = body.substitute x (d.image (above.filterMap Entry.introduced))

end Draw

/-- The functions among drawn names. -/
def skolems (ds : List Draw) : List String :=
  (ds.filter (·.rule = .delta)).map Draw.name

variable {s : Session} {r : Request}

/-- The names that a request draws: its rule puts them to use, for the entry in the place of its
goal. -/
def draws (s : Session) (r : Request) : List Draw :=
  match r.rule?, r.goal? with
  | some rule, some goal =>
    ((s.perform r).2.names.taken.toList.filter (· ∉ s.names.taken)).map (⟨rule, goal, ·⟩)
  | _, _ => []

/-- The names that a run draws, in order. -/
def drawn (s : Session) : List Request → List Draw
  | [] => []
  | r :: rs => s.draws r ++ (s.perform r).2.drawn rs

theorem drawn_concat (s : Session) (rs : List Request) (r : Request) :
    s.drawn (rs ++ [r]) = s.drawn rs ++ (s.after rs).draws r := by
  induction rs generalizing s with
  | nil => simp [drawn]
  | cons r' rs ih =>
    rw [List.cons_append, drawn, drawn, ih, List.append_assoc]
    rfl

/-- What a rule application draws: nothing, where the source falls into parts, or one name, where an
instance of a quantified source is added. -/
inductive Growth.Draws (g : Growth s) : List Draw → Prop
  | nothing (hrule : g.parts.rule.drawsName = false) (hnames : g.names = s.names)
      (hfragments : g.expansion.fragments = g.parts.parts.map fun p => ⟨p, none⟩) : g.Draws []
  | name (d : Draw) (stem : String) (hrule : g.parts.rule.drawsName = true)
      (hd : d = ⟨g.parts.rule, g.goal, (s.names.issue stem).1⟩)
      (hnames : g.names = (s.names.issue stem).2) {q : Quantifier} {x : String} {body : Term}
      (hsource : g.source.signed.formula = .quantified q x body) {sign : Sign}
      (hexpansion : g.expansion = .linear
        ⟨⟨sign, body.substitute x (d.image (g.above.filterMap Entry.introduced))⟩, d.introduced⟩
        []) :
      g.Draws [d]

theorem filter_not_mem_taken_issue (names : NameSupply) (stem : String) :
    (names.issue stem).2.taken.toList.filter (· ∉ names.taken) = [(names.issue stem).1] := by
  have hnodup : (names.issue stem).2.taken.toList.Nodup :=
    (names.issue stem).2.taken.ascending.imp String.ne_of_lt
  refine List.perm_singleton.mp
    ((List.perm_ext_iff_of_nodup (hnodup.filter _) (List.nodup_singleton _)).mpr fun x => ?_)
  rw [List.mem_filter, ← NameSet.mem_def, NameSupply.mem_taken_issue, List.mem_singleton,
    decide_eq_true_eq]
  constructor
  · rintro ⟨rfl | hx, hnot⟩
    · rfl
    · exact absurd hx hnot
  · rintro rfl
    exact ⟨.inl rfl, names.issue_not_mem stem⟩

/-- The names that a rule application draws. -/
def Growth.draws (g : Growth s) : List Draw :=
  (g.names.taken.toList.filter (· ∉ s.names.taken)).map (⟨g.parts.rule, g.goal, ·⟩)

theorem Growth.draws_eq {reply : Except ProofError Reply} (g : Growth s)
    (hrule : r.rule? = some g.parts.rule) (hgoal : r.goal? = some g.goal)
    (h : s.perform r = (reply, g.session)) : s.draws r = g.draws := by
  rw [Session.draws, hrule, hgoal, h]
  rfl

theorem Growth.draws_spec (g : Growth s) : g.Draws g.draws := by
  have hexpand := g.expand_eq
  have hsource := g.parts_eq
  unfold Growth.draws
  by_cases hdraws : g.parts.rule.drawsName = false
  · obtain ⟨hfragments, hnames⟩ := Decomposition.of_expand_parts hdraws hexpand
    have hnone : g.names.taken.toList.filter (· ∉ s.names.taken) = [] := by
      simp [hnames, NameSet.mem_def]
    rw [hnone]
    exact .nothing hdraws hnames hfragments
  cases hparts : g.parts with
  | alpha first others | beta left right =>
    simp [hparts, Decomposition.rule, Rule.drawsName] at hdraws
  | gamma sign x body =>
    rw [hparts] at hexpand hsource
    obtain ⟨hexpansion, hnames⟩ := Decomposition.of_expand_gamma hexpand
    obtain ⟨q, hq⟩ := Signed.formula_of_quantified hsource (.inl rfl)
    rw [hnames, filter_not_mem_taken_issue, List.map_singleton]
    exact .name _ (Text.uppercase x) (by rw [hparts]; rfl) (by rw [hparts]) hnames hq hexpansion
  | delta sign x body =>
    rw [hparts] at hexpand hsource
    obtain ⟨hexpansion, hnames⟩ := Decomposition.of_expand_delta hexpand
    obtain ⟨q, hq⟩ := Signed.formula_of_quantified hsource (.inr rfl)
    rw [hnames, filter_not_mem_taken_issue, List.map_singleton]
    exact .name _ "f" (by rw [hparts]; rfl) (by rw [hparts]) hnames hq hexpansion

end Session

end SignedTableaux
