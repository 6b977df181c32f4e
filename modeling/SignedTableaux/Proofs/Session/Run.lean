import Mathlib.Data.List.Induction
import SignedTableaux.Proofs.Tableau.Entries
import SignedTableaux.Session.Basic

/-!
# Runs of a session

A request is refused and changes nothing, or it makes the tableau grow at an open goal, or it closes
goals. This module says once what an accepted request does; every fact about all sessions that can
be reached is then a matter of these two kinds of steps.

## Main definitions

* `Session.Growth`, `Session.Closing` — an accepted rule application, and an accepted closure
* `Session.Effect` — the three things that a request can do
* `Session.after` — the session after a run of requests

## Main results

* `Session.perform_effect` — every request has one of the three effects
* `Session.after_mono`, `Session.after_induction` — what growth and closing keep holds on, and holds
  after every run if it holds at the start
* `Session.wellNumbered_after` — the numbering of nodes after every run
-/

namespace SignedTableaux

/-! ### Guards -/

@[simp] theorem bind_eq_ok {ε α β : Type} {x : Except ε α} {f : α → Except ε β} {b : β} :
    (x >>= f) = .ok b ↔ ∃ a, x = .ok a ∧ f a = .ok b := by
  cases x <;> simp [bind, Except.bind]

@[simp] theorem mapError_eq_ok {ε ε' α : Type} {x : Except ε α} {f : ε → ε'} {a : α} :
    x.mapError f = .ok a ↔ x = .ok a := by
  cases x <;> simp [Except.mapError]

@[simp] theorem require_eq_ok {condition : Prop} [Decidable condition] {e : ProofError} {u : Unit} :
    require condition e = .ok u ↔ condition := by
  by_cases h : condition <;> simp [require, h]

@[simp] theorem orFail_eq_ok {α : Type} {a : Option α} {b : α} {e : ProofError} :
    orFail a e = .ok b ↔ a = some b := by
  cases a <;> simp [orFail]

theorem Node.content_of_open {node : Node} (hgoal : node.isGoal) (hopen : ¬ node.isClosed) :
    node.content = .goal none := by
  cases hcontent : node.content with
  | entry entry => simp [isGoal, asEntry, hcontent] at hgoal
  | goal closing => cases closing <;> simp_all [isClosed, closing?]

namespace Decomposition

variable {scope : List String} {names names' : NameSupply} {expansion : Expansion} {sign : Sign}
  {x : String} {body : Term}

/-- What the gamma rule adds: the instance at a new variable. -/
theorem of_expand_gamma (h : (gamma sign x body).expand scope names = (.ok expansion, names')) :
    expansion = .linear ⟨⟨sign, body.substitute x (.var (names.issue (Text.uppercase x)).1)⟩,
      some (names.issue (Text.uppercase x)).1⟩ [] ∧
        names' = (names.issue (Text.uppercase x)).2 := by
  have hx : x ≠ "" := by
    rintro rfl
    simp [expand] at h
  simpa [expand, hx, NameSupply.freshVariable, Term.rename, eq_comm] using h

/-- What the delta rule adds: the instance at a new function of the variables in scope. -/
theorem of_expand_delta (h : (delta sign x body).expand scope names = (.ok expansion, names')) :
    expansion = .linear
      ⟨⟨sign, body.substitute x (.fn (names.issue "f").1 (scope.map .var))⟩, none⟩ [] ∧
        names' = (names.issue "f").2 := by
  have hx : x ≠ "" := by
    rintro rfl
    simp [expand] at h
  simpa [expand, hx, NameSupply.freshSkolem, eq_comm] using h

/-- A rule that cannot be carried out draws no name. -/
theorem names_of_expand_error {d : Decomposition} {e : ProofError}
    (h : d.expand scope names = (.error e, names')) : names' = names := by
  cases d with
  | alpha first others => simp [expand] at h
  | beta left right => simp [expand] at h
  | gamma sign x body =>
    by_cases hx : x = ""
    · simp_all [expand]
    · simp [expand, hx] at h
  | delta sign x body =>
    by_cases hx : x = ""
    · simp_all [expand]
    · simp [expand, hx] at h

end Decomposition

/-- The rule that applies expands by the decomposition. -/
theorem Rule.expand_of_decomposition? {source : Signed} {d : Decomposition}
    (h : source.decomposition? = some d) (scope : List String) (names : NameSupply) :
    d.rule.expand source scope names = d.expand scope names := by
  rw [expand, h]
  exact if_pos rfl

/-- The rule that a request asks to apply. -/
def Request.rule? : Request → Option Rule
  | .applyRule rule _ _ => some rule
  | .applyRuleNearest rule _ => some rule
  | .close .. | .closeWith .. => none

/-- The goal that a request asks to expand. -/
def Request.goal? : Request → Option NodeId
  | .applyRule _ goal _ => some goal
  | .applyRuleNearest _ goal => some goal
  | .close .. | .closeWith .. => none

/-- The two nodes that a request asks to close with. -/
def Request.pair? : Request → Option (NodeId × NodeId)
  | .applyRule .. | .applyRuleNearest .. => none
  | .close a b _ => some (a, b)
  | .closeWith a b _ => some (a, b)

namespace Session

/-- An accepted rule application: an entry above an open goal is taken apart there, where it was not
taken apart before. -/
structure Growth (s : Session) where
  goal : NodeId
  /-- The entries above the goal. -/
  above : List Entry
  source : Entry
  parts : Decomposition
  expansion : Expansion
  names : NameSupply
  goal_mem : ⟨goal, .goal none, above⟩ ∈ s.tableau.spots
  source_mem : source ∈ above
  not_expanded : ¬ s.tableau.isExpandedOn source.id goal
  parts_eq : source.signed.decomposition? = some parts
  expand_eq : parts.expand (above.filterMap Entry.introduced) s.names = (.ok expansion, names)

namespace Growth

variable {s : Session} (g : Growth s)

/-- What takes the place of the goal. -/
def subtree : Tableau :=
  .ofExpansion g.goal s.tableau.size ⟨g.parts.rule, g.source.id⟩ g.expansion

/-- The session afterwards. -/
def session : Session :=
  ⟨s.tableau.graft g.goal g.subtree, g.names⟩

theorem mem_goals : g.goal ∈ s.tableau.goals :=
  Tableau.mem_goals_of_mem_spots g.goal_mem

/-- The spots afterwards: the goal is replaced, all others stay. -/
theorem mem_spots_iff {p : Spot} (hnodup : s.tableau.ids.Nodup) :
    p ∈ g.session.tableau.spots ↔
      p ∈ s.tableau.spots ∧ p.id ≠ g.goal ∨ p ∈ g.subtree.spotsFrom g.above :=
  Tableau.mem_spots_graft_of_nodup hnodup g.goal_mem

theorem mem_entries_iff (hnodup : s.tableau.ids.Nodup) {e : Entry} :
    e ∈ g.session.tableau.entries ↔ e ∈ s.tableau.entries ∨ e ∈ g.subtree.entries := by
  rw [← List.mem_append]
  exact (Tableau.entries_graft_perm g.subtree hnodup g.mem_goals).mem_iff

/-- An entry stays where it is. -/
theorem mem_spots_of_mem {e : Entry} {above : List Entry}
    (h : ⟨e.id, .entry e, above⟩ ∈ s.tableau.spots) :
    ⟨e.id, .entry e, above⟩ ∈ g.session.tableau.spots :=
  Tableau.mem_spots_graft.mpr (.inl ⟨h, by simp⟩)

end Growth

/-- An accepted closure: two entries with opposite signs and a common instance, and open goals below
their nearest common ancestor. -/
structure Closing (s : Session) where
  a : NodeId
  b : NodeId
  σ : Substitution
  left : Entry
  right : Entry
  ancestor : NodeId
  left_eq : s.entryFor a = .ok left
  right_eq : s.entryFor b = .ok right
  sign_ne : left.signed.sign ≠ right.signed.sign
  ancestor_eq : s.tableau.commonAncestor? left.id right.id = some ancestor
  unify_eq : ∃ t, σ.unify left.signed.formula right.signed.formula = .ok t
  openGoals_ne : s.tableau.openGoalsBelow ancestor ≠ []

namespace Closing

variable {s : Session} (c : Closing s)

/-- What is reported. -/
def closure : Closure :=
  ⟨c.ancestor, s.tableau.openGoalsBelow c.ancestor, c.σ⟩

/-- The session afterwards. -/
def session : Session :=
  ⟨s.tableau.closeBelow c.ancestor c.σ, s.names.reserve c.σ.imageSymbols⟩

end Closing

/-- What a request does to a session. -/
inductive Effect (s : Session) (r : Request) : Prop
  | refused (e : ProofError) (h : s.perform r = (.error e, s))
  | grown (g : Growth s) (hrule : r.rule? = some g.parts.rule)
      (h : s.perform r = (.ok (.newGoals g.subtree.goals), g.session))
      (hgoal : r.goal? = some g.goal)
  | closed (c : Closing s) (hpair : r.pair? = some (c.a, c.b))
      (h : s.perform r = (.ok (.closure c.closure), c.session))

/-! ### Every request has an effect -/

variable {s : Session}

theorem exists_above_of_sourceEntry {rule : Rule} {goal source : NodeId} {entry : Entry}
    (hnodup : s.tableau.ids.Nodup) (h : s.sourceEntry rule goal source = .ok entry) :
    ∃ above, ⟨goal, .goal none, above⟩ ∈ s.tableau.spots ∧ entry ∈ above ∧ entry.id = source ∧
      entry.signed.rule? = some rule ∧ ¬ s.tableau.isExpandedOn source goal := by
  simp only [sourceEntry, node, bind_eq_ok, orFail_eq_ok, require_eq_ok, pure, Except.pure,
    Except.ok.injEq, exists_const] at h
  obtain ⟨goalNode, hgoalNode, hgoal, hopen, sourceNode, hsourceNode, entry', hentry, hancestor,
    hrule, hexpanded, rfl⟩ := h
  -- the guards are about the nodes of two numbers; read them as the spots of these numbers
  obtain ⟨p, hp, hpcontent⟩ := Tableau.exists_spot_of_node? hnodup hgoalNode
  obtain ⟨q, hq, hqcontent⟩ := Tableau.exists_spot_of_node? hnodup hsourceNode
  rw [Node.content_of_open hgoal hopen] at hpcontent
  rw [Node.content_of_asEntry hentry] at hqcontent
  obtain ⟨hpmem, rfl⟩ := Tableau.mem_of_spot?_eq_some hp
  obtain ⟨hqmem, rfl⟩ := Tableau.mem_of_spot?_eq_some hq
  obtain ⟨sourceId, sourceContent, sourceAbove⟩ := q
  obtain rfl : sourceContent = .entry entry' := hqcontent
  obtain rfl : sourceId = entry'.id := Tableau.id_of_content_entry hqmem rfl
  have hmem := Tableau.mem_above_of_isAncestor hnodup hpmem hqmem hancestor
  obtain ⟨goalId, goalContent, above⟩ := p
  obtain rfl : goalContent = .goal none := hpcontent
  exact ⟨above, hpmem, hmem, rfl, hrule, hexpanded⟩

theorem freeVars_of_goal_mem {goal : NodeId} {above : List Entry} {closing : Option Substitution}
    (hnodup : s.tableau.ids.Nodup) (h : ⟨goal, .goal closing, above⟩ ∈ s.tableau.spots) :
    s.tableau.freeVars goal = above.filterMap Entry.introduced := by
  rw [Tableau.freeVars, Tableau.branch?_of_mem_spots hnodup h]
  rfl

/-- The entry that a node stands for is in the tableau. -/
theorem exists_mem_spots_of_entryFor {id : NodeId} {e : Entry} (h : s.entryFor id = .ok e) :
    ∃ above, ⟨e.id, .entry e, above⟩ ∈ s.tableau.spots := by
  simp only [entryFor, bind_eq_ok, orFail_eq_ok, Tableau.nearest?, Tableau.branch?_eq] at h
  obtain ⟨-, -, hnearest⟩ := h
  obtain ⟨p, hp, hhead⟩ : ∃ p, s.tableau.spot? id = some p ∧ p.branch.head? = some e := by
    simpa [Option.bind_eq_some_iff] using hnearest
  obtain ⟨hmem, -⟩ := Tableau.mem_of_spot?_eq_some hp
  obtain ⟨id', content, above⟩ := p
  cases content with
  | entry e' =>
    obtain rfl : e' = e := by simpa [Spot.branch] using hhead
    obtain rfl : id' = e'.id := Tableau.id_of_content_entry hmem rfl
    exact ⟨above, hmem⟩
  | goal closing =>
    obtain ⟨upper, rfl⟩ : ∃ upper, above = e :: upper := List.head?_eq_some_iff.mp hhead
    exact ⟨upper, Tableau.mem_spots_of_above hmem (List.nil_append _).symm⟩

/-- A rule application is refused and changes nothing, or it is a growth. -/
theorem applyRule_effect (hnodup : s.tableau.ids.Nodup) (rule : Rule) (goal source : NodeId) :
    (∃ e, s.applyRule rule goal source = (.error e, s)) ∨
      ∃ g : Growth s, g.parts.rule = rule ∧ g.goal = goal ∧ g.source.id = source ∧
        s.applyRule rule goal source = (.ok g.subtree.goals, g.session) := by
  unfold applyRule
  cases hsource : s.sourceEntry rule goal source with
  | error e => exact .inl ⟨e, rfl⟩
  | ok entry =>
    obtain ⟨above, hgoal, hentry, rfl, hrule, hexpanded⟩ :=
      exists_above_of_sourceEntry hnodup hsource
    obtain ⟨d, hd, rfl⟩ := Option.map_eq_some_iff.mp hrule
    simp only [Rule.expand_of_decomposition? hd, freeVars_of_goal_mem hnodup hgoal]
    rcases hresult : d.expand (above.filterMap Entry.introduced) s.names with ⟨e | expansion, names⟩
    · rw [Decomposition.names_of_expand_error hresult]
      exact .inl ⟨e, rfl⟩
    · exact .inr ⟨⟨goal, above, entry, d, expansion, names, hgoal, hentry, hexpanded, hd, hresult⟩,
        rfl, rfl, rfl, rfl⟩

/-- A closure is refused and changes nothing, or it is a closing. -/
theorem closeWith_effect (s : Session) (a b : NodeId) (σ : Substitution) :
    (∃ e, s.closeWith a b σ = (.error e, s)) ∨
      ∃ c : Closing s, c.a = a ∧ c.b = b ∧ s.closeWith a b σ = (.ok c.closure, c.session) := by
  unfold closeWith
  cases hclosure : s.closureAt a b σ with
  | error e => exact .inl ⟨e, rfl⟩
  | ok result =>
    simp only [closureAt, bind_eq_ok, orFail_eq_ok, require_eq_ok, mapError_eq_ok, pure,
      Except.pure, Except.ok.injEq, exists_const] at hclosure
    obtain ⟨left, hleft, right, hright, hsign, ancestor, hancestor, t, hunify, hopen, rfl⟩ :=
      hclosure
    exact .inr ⟨⟨a, b, σ, left, right, ancestor, hleft, hright, hsign, hancestor, ⟨t, hunify⟩,
      hopen⟩, rfl, rfl, rfl⟩

/-- A request is refused and changes nothing, or it is a growth, or it is a closing. -/
theorem perform_effect (hnodup : s.tableau.ids.Nodup) (r : Request) : s.Effect r := by
  cases r with
  | applyRule rule goal source =>
    rcases applyRule_effect hnodup rule goal source with ⟨e, h⟩ | ⟨g, rfl, rfl, -, h⟩
    · exact .refused e (by rw [perform, h]; rfl)
    · exact .grown g rfl (by rw [perform, h]; rfl) rfl
  | applyRuleNearest rule goal =>
    cases hentry : s.entryFor goal with
    | error e => exact .refused e (by rw [perform, applyRuleNearest, hentry]; rfl)
    | ok entry =>
      rcases applyRule_effect hnodup rule goal entry.id with ⟨e, h⟩ | ⟨g, rfl, rfl, -, h⟩
      · exact .refused e (by simp only [perform, applyRuleNearest, hentry, h]; rfl)
      · exact .grown g rfl (by simp only [perform, applyRuleNearest, hentry, h]; rfl) rfl
  | close a b text =>
    cases hσ : s.closingSubstitution a b text with
    | error e => exact .refused e (by rw [perform, close, hσ]; rfl)
    | ok σ =>
      rcases closeWith_effect s a b σ with ⟨e, h⟩ | ⟨c, rfl, rfl, h⟩
      · exact .refused e (by simp only [perform, close, hσ, h]; rfl)
      · exact .closed c rfl (by simp only [perform, close, hσ, h]; rfl)
  | closeWith a b σ =>
    rcases closeWith_effect s a b σ with ⟨e, h⟩ | ⟨c, rfl, rfl, h⟩
    · exact .refused e (by rw [perform, h]; rfl)
    · exact .closed c rfl (by rw [perform, h]; rfl)

/-! ### Runs -/

theorem ofFormula_eq_of_start {text : String} {φ : Term} (hstart : start text = .ok s)
    (hφ : Formula.parse text = .ok φ) : ofFormula φ = s := by
  unfold start at hstart
  rw [hφ] at hstart
  exact Except.ok.inj hstart

/-- The session after a run of requests. -/
def after (s : Session) (rs : List Request) : Session :=
  rs.foldl (fun s r => (s.perform r).2) s

@[simp] theorem after_nil (s : Session) : s.after [] = s := rfl

/-- The last request of the start of a run is the last of all, or comes before it. -/
theorem eq_or_of_prefix_concat {pre rs : List Request} {r r' : Request}
    (h : pre ++ [r'] <+: rs ++ [r]) : pre = rs ∧ r' = r ∨ pre ++ [r'] <+: rs := by
  refine (List.prefix_concat_iff.mp h).imp_left fun heq => ?_
  obtain ⟨hpre, hr⟩ := List.append_inj' heq rfl
  exact ⟨hpre, List.singleton_inj.mp hr⟩

@[simp] theorem after_concat (s : Session) (rs : List Request) (r : Request) :
    s.after (rs ++ [r]) = ((s.after rs).perform r).2 := by
  simp [after]

theorem Growth.wellNumbered (g : Growth s) (h : s.tableau.WellNumbered) :
    g.session.tableau.WellNumbered :=
  h.expand g.mem_goals

theorem Closing.wellNumbered (c : Closing s) (h : s.tableau.WellNumbered) :
    c.session.tableau.WellNumbered :=
  h.closeBelow

/-- Numbers have no gaps and grow downwards, after every run. -/
theorem wellNumbered_after (φ : Term) (rs : List Request) :
    ((ofFormula φ).after rs).tableau.WellNumbered := by
  induction rs using List.reverseRecOn with
  | nil => exact .start _
  | append_singleton rs r ih =>
    rw [after_concat]
    rcases perform_effect ih.nodup r with ⟨e, h⟩ | ⟨g, -, h⟩ | ⟨c, -, h⟩ <;> rw [h]
    · exact ih
    · exact g.wellNumbered ih
    · exact c.wellNumbered ih

theorem effect_after (φ : Term) (rs : List Request) (r : Request) :
    ((ofFormula φ).after rs).Effect r :=
  perform_effect (wellNumbered_after φ rs).nodup r

/-- What growth and closing keep holds on in the course of a run. -/
theorem after_mono {φ : Term} {P : Session → Prop} {pre rs : List Request}
    (grown : ∀ {s : Session} (g : Growth s), s.tableau.WellNumbered → P s → P g.session)
    (closed : ∀ {s : Session} (c : Closing s), s.tableau.WellNumbered → P s → P c.session)
    (hpre : pre <+: rs) (h : P ((ofFormula φ).after pre)) : P ((ofFormula φ).after rs) := by
  induction rs using List.reverseRecOn with
  | nil => rwa [List.prefix_nil.mp hpre] at h
  | append_singleton rs r ih =>
    rcases List.prefix_concat_iff.mp hpre with rfl | hpre
    · exact h
    · have hnumbered := wellNumbered_after φ rs
      rw [after_concat]
      rcases effect_after φ rs r with ⟨e, h⟩ | ⟨g, -, h⟩ | ⟨c, -, h⟩ <;> rw [h]
      · exact ih hpre
      · exact grown g hnumbered (ih hpre)
      · exact closed c hnumbered (ih hpre)

/-- What holds of a new session and is kept by growth and by closing holds after every run. -/
theorem after_induction {φ : Term} {P : Session → Prop} (start : P (ofFormula φ))
    (grown : ∀ {s : Session} (g : Growth s), s.tableau.WellNumbered → P s → P g.session)
    (closed : ∀ {s : Session} (c : Closing s), s.tableau.WellNumbered → P s → P c.session)
    (rs : List Request) : P ((ofFormula φ).after rs) :=
  after_mono grown closed List.nil_prefix start

end Session

end SignedTableaux
