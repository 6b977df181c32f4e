import SignedTableaux.Proofs.ExchangedNames
import SignedTableaux.Proofs.Session.Hygiene
import SignedTableaux.Proofs.Session.Justification
import SignedTableaux.Proofs.Tableau.Persistence
import SignedTableaux.Proofs.Tableau.Relabeling

/-!
# Rules at different goals are independent

Two rule applications at different goals do not get in each other's way: each is accepted after the
other, and both orders lead to the same tableau, but for the numbers of the new nodes and, if both
rules draw a name, for the two names.

## Main definitions

* `Decomposition.stem?`, `Decomposition.expansionAt` — the stem of the name that a rule draws, and
  the expansion once the name is known
* `Session.Growth.later` — a rule application after another one
* `Session.Exchange` — what two orders of two requests have to do with each other

## Main results

* `Signed.mapNames_expansionAt` — an expansion depends on the drawn name by renaming
* `Session.Growth.relabel_subtree`, `Session.Growth.relabel_later` — what takes the place of either
  goal, and the whole tableau
* `Session.exchange_after` — two rule applications in either order, after every run
-/

namespace SignedTableaux

/-! ### Expansions and the drawn name -/

namespace Decomposition

/-- The stem of the name that a rule draws, if it draws one. -/
def stem? : Decomposition → Option String
  | .alpha .. | .beta .. => none
  | .gamma _ x _ => some (Text.uppercase x)
  | .delta .. => some "f"

/-- The expansion where the drawn name is `y`. -/
def expansionAt (d : Decomposition) (scope : List String) (y : String) : Expansion :=
  match d with
  | .alpha first others => .linear ⟨first, none⟩ (others.map (⟨·, none⟩))
  | .beta left right => .branching ⟨left, none⟩ ⟨right, none⟩
  | .gamma sign x body => .linear ⟨⟨sign, body.substitute x (.var y)⟩, some y⟩ []
  | .delta sign x body => .linear ⟨⟨sign, body.substitute x (.fn y (scope.map .var))⟩, none⟩ []

variable {d : Decomposition} {scope : List String} {names names' : NameSupply}
  {expansion : Expansion}

/-- A rule that can be carried out can be carried out with any supply of names. -/
theorem expand_of_expand (h : d.expand scope names = (.ok expansion, names'))
    (supply : NameSupply) :
    d.expand scope supply =
      (.ok (d.expansionAt scope (supply.draw d.stem?).1), (supply.draw d.stem?).2) := by
  cases d with
  | alpha first others => rfl
  | beta left right => rfl
  | gamma sign x body =>
    have hx : x ≠ "" := by
      rintro rfl
      simp [expand] at h
    rw [expand, if_neg hx]
    rfl
  | delta sign x body =>
    have hx : x ≠ "" := by
      rintro rfl
      simp [expand] at h
    rw [expand, if_neg hx]
    rfl

theorem added_expansionAt (d : Decomposition) (scope : List String) (x y : String) :
    (d.expansionAt scope x).added = (d.expansionAt scope y).added := by
  cases d <;> rfl

end Decomposition

namespace Signed

variable {s : Signed} {d : Decomposition} {scope : List String} {ρ : String → String} {x : String}

theorem symbols_parts (h : s.decomposition? = some d) :
    ∀ p ∈ d.parts, ∀ y ∈ p.formula.symbols, y ∈ s.formula.symbols := by
  obtain ⟨sign, t⟩ := s
  cases isOf_of_decomposition? h with
  | not hparts => simp [hparts]
  | binary hparts => simp +contextual [hparts]
  | quantified hparts => simp [hparts]

/-- An expansion depends on the drawn name by renaming: a function that moves no other name turns
the expansion for a name into the expansion for its image. -/
theorem mapNames_expansionAt (h : s.decomposition? = some d)
    (hfixed : ∀ y ∈ s.formula.symbols, ρ y = y) (hscope : ∀ y ∈ scope, ρ y = y)
    (hbound : ∀ z ∈ s.formula.boundNames, z ∉ scope)
    (hx : d.stem?.isSome → x ∉ s.formula.boundNames ∧ ρ x ∉ s.formula.boundNames) :
    (d.expansionAt scope x).mapNames ρ = d.expansionAt scope (ρ x) := by
  have hparts : ∀ p ∈ d.parts, (Fragment.mk p none).mapNames ρ = ⟨p, none⟩ := by
    intro p hp
    rw [Fragment.mapNames, Term.mapNames_eq_self fun y hy => hfixed y (symbols_parts h p hp y hy)]
    rfl
  cases d with
  | alpha first others =>
    obtain ⟨hfirst, hothers⟩ := List.forall_mem_cons.mp hparts
    rw [Decomposition.expansionAt, Expansion.mapNames, hfirst, List.map_map]
    exact congrArg (Expansion.linear _) (List.map_congr_left hothers)
  | beta left right =>
    rw [Decomposition.expansionAt, Expansion.mapNames, hparts left (by simp [Decomposition.parts]),
      hparts right (by simp [Decomposition.parts])]
    rfl
  | gamma sign z body =>
    obtain ⟨q, hq⟩ := formula_of_quantified h (.inl rfl)
    obtain ⟨hx, hx'⟩ := hx rfl
    rw [hq] at hfixed hx hx'
    have hcapture {y : String} (hy : y ∉ (Term.quantified q z body).boundNames) :
        (Substitution.single z (.var y)).CaptureFree body := by
      refine Substitution.captureFree_single fun w hw hmem => hy ?_
      rw [← Term.mem_freeVars_var.mp hmem]
      simp [hw]
    have hbody := Term.mapNames_substitute (r := .var x) (fun y hy => hfixed y (by simp [hy]))
      (hcapture hx) (hcapture hx')
    rw [Decomposition.expansionAt, Expansion.mapNames, Fragment.mapNames, hbody]
    rfl
  | delta sign z body =>
    obtain ⟨q, hq⟩ := formula_of_quantified h (.inr rfl)
    rw [hq] at hfixed hbound
    -- here the drawn name is a function, and only the variables in scope could be captured
    have hcapture (y : String) :
        (Substitution.single z (.fn y (scope.map .var))).CaptureFree body :=
      Substitution.captureFree_single fun w hw hmem => hbound w (by simp [hw]) (by simpa using hmem)
    have himage : (Term.fn x (scope.map .var)).mapNames ρ = .fn (ρ x) (scope.map .var) := by
      rw [Term.mapNames_app, List.map_map]
      exact congrArg (Term.fn (ρ x))
        (List.map_congr_left fun y hy => congrArg Term.var (hscope y hy))
    have hbody := Term.mapNames_substitute (fun y hy => hfixed y (by simp [hy])) (hcapture x)
      (himage ▸ hcapture (ρ x))
    rw [Decomposition.expansionAt, Expansion.mapNames, Fragment.mapNames, hbody, himage]
    rfl

end Signed

namespace Session

variable {s : Session}

/-- Labels in use are all that a tableau has. -/
theorem relabel_tableau {φ : Term} {ds : List Draw} {π : NodeId → NodeId} {ρ : String → String}
    (hnumbered : s.tableau.WellNumbered) (hledger : s.Ledger φ ds) (hsourced : s.Sourced)
    (hids : ∀ id < s.tableau.size, π id = id) (hnames : ∀ y ∈ s.names.taken, ρ y = y) :
    s.tableau.relabel π ρ = s.tableau := by
  refine Tableau.relabel_eq_self (fun g hg => hids g ?_) fun e he => ?_
  · exact hnumbered.mem_ids_iff.mp (Tableau.goals_subset_ids hg)
  obtain ⟨above, hspot⟩ := (Tableau.mem_entries_iff []).mp he
  have hid : e.id < s.tableau.size := hnumbered.mem_ids_iff.mp (Tableau.id_mem_ids hspot)
  refine ⟨hids _ hid, fun origin horigin => ?_, fun y hy => hnames y ?_, fun y hy => hnames y ?_⟩
  · -- the source of an entry is above it, so its number is in use, too
    obtain ⟨source, hsource, hsource_id⟩ := hsourced e above origin hspot horigin
    rw [← hsource_id]
    exact hids _ (Nat.lt_trans (hnumbered.ordered _ hspot source hsource) hid)
  · exact hledger.symbols_mem_taken (hledger.scope_taken hspot) (hledger.made e above hspot) y hy
  · exact hledger.taken _ (hledger.introduced e he y hy)

namespace Growth

/-! ### One rule application -/

section One

variable (g : Growth s)

/-- The variables introduced above the goal. -/
def scope : List String :=
  g.above.filterMap Entry.introduced

/-- What takes the place of the goal, if the next number is `next` and the drawn name is `x`. -/
def subtreeAt (next : NodeId) (x : String) : Tableau :=
  .ofExpansion g.goal next g.origin (g.parts.expansionAt g.scope x)

theorem expansion_eq :
    g.expansion = g.parts.expansionAt g.scope (s.names.draw g.parts.stem?).1 := by
  have hexpand := Decomposition.expand_of_expand g.expand_eq s.names
  rw [g.expand_eq] at hexpand
  exact Except.ok.inj (congrArg Prod.fst hexpand)

theorem names_eq : g.names = (s.names.draw g.parts.stem?).2 := by
  have hexpand := Decomposition.expand_of_expand g.expand_eq s.names
  rw [g.expand_eq] at hexpand
  exact congrArg Prod.snd hexpand

theorem subtree_eq : g.subtree = g.subtreeAt s.tableau.size (s.names.draw g.parts.stem?).1 := by
  rw [subtree, expansion_eq]
  rfl

theorem name_draws :
    g.draws.map Draw.name = g.parts.stem?.toList.map fun _ => (s.names.draw g.parts.stem?).1 := by
  rw [draws, List.map_map, names_eq]
  cases g.parts.stem? with
  | none => simp [NameSupply.draw, NameSet.mem_def]
  | some stem =>
    rw [NameSupply.draw, filter_not_mem_taken_issue]
    rfl

/-- The source of a growth passes all checks. -/
theorem sourceEntry_eq (hnodup : s.tableau.ids.Nodup) :
    s.sourceEntry g.parts.rule g.goal g.source.id = .ok g.source := by
  obtain ⟨lower, upper, habove⟩ := List.append_of_mem g.source_mem
  have hsource := Tableau.mem_spots_of_above g.goal_mem habove
  obtain ⟨n, hn, hgoal⟩ := Tableau.exists_node?_of_mem_spots hnodup g.goal_mem
  obtain ⟨m, hm, hentry⟩ := Tableau.exists_node?_of_mem_spots hnodup hsource
  have hrule : g.source.signed.rule? = some g.parts.rule := by
    rw [Signed.rule?, g.parts_eq]
    rfl
  simp only [sourceEntry, node, bind_eq_ok, orFail_eq_ok, require_eq_ok, pure, Except.pure,
    Except.ok.injEq, exists_const]
  refine ⟨n, hn, ?_, ?_, m, hm, g.source, ?_, ?_, hrule, g.not_expanded, rfl⟩
  · rw [Node.isGoal, Node.asEntry, hgoal]
    rfl
  · rw [Node.isClosed, Node.closing?, hgoal]
    exact Bool.false_ne_true
  · rw [Node.asEntry, hentry]
  · exact Tableau.isAncestor_of_mem_above hnodup g.goal_mem g.source_mem

/-- The request for a rule application. -/
def request : Request :=
  .applyRule g.parts.rule g.goal g.source.id

theorem perform_eq (hnodup : s.tableau.ids.Nodup) :
    s.perform g.request = (.ok (.newGoals g.subtree.goals), g.session) := by
  simp only [request, perform, applyRule, g.sourceEntry_eq hnodup,
    Rule.expand_of_decomposition? g.parts_eq, freeVars_of_goal_mem hnodup g.goal_mem, g.expand_eq]
  rfl

theorem after_request (hnodup : s.tableau.ids.Nodup) : s.after [g.request] = g.session :=
  congrArg Prod.snd (g.perform_eq hnodup)

theorem draws_request (hnodup : s.tableau.ids.Nodup) : s.draws g.request = g.draws :=
  g.draws_eq rfl rfl (g.perform_eq hnodup)

theorem draws_eq_nil_iff : g.draws = [] ↔ g.parts.stem? = none := by
  rw [← List.map_eq_nil_iff (f := Draw.name), name_draws]
  cases g.parts.stem? <;> simp

theorem size_session (hnodup : s.tableau.ids.Nodup) :
    g.session.tableau.size = s.tableau.size + g.expansion.added :=
  Tableau.size_expand hnodup g.mem_goals

variable {φ : Term} {ds : List Draw}

/-- The numbers of the goal and of the source are in use. -/
theorem lt_size (h : s.tableau.WellNumbered) :
    g.goal < s.tableau.size ∧ g.source.id < s.tableau.size := by
  have hgoal := h.mem_ids_iff.mp (Tableau.goals_subset_ids g.mem_goals)
  exact ⟨hgoal, Nat.lt_trans (h.ordered _ g.goal_mem _ g.source_mem) hgoal⟩

/-- What takes the place of the goal under other labels: the next numbers and the drawn name are
others, all else is the same. -/
theorem relabel_subtreeAt {next next' : NodeId} {x : String} {π : NodeId → NodeId}
    {ρ : Equiv.Perm String} (hnumbered : s.tableau.WellNumbered) (hledger : s.Ledger φ ds)
    (hids : ∀ id < s.tableau.size, π id = id)
    (hnext : ∀ i < g.expansion.added, π (next + i) = next' + i)
    (hnames : ∀ y ∈ s.names.taken, ρ y = y) (hx : g.parts.stem?.isSome → x ∉ s.names.taken) :
    (g.subtreeAt next x).relabel π ρ = g.subtreeAt next' (ρ x) := by
  have hmade := hledger.made_above g.goal_mem g.source_mem
  have hscope : ∀ y ∈ g.scope, y ∈ s.names.taken := hledger.scope_taken g.goal_mem
  have hsymbols := hledger.symbols_mem_taken hscope hmade
  have hbound : ∀ z ∈ g.source.signed.formula.boundNames, z ∈ φ.symbols := fun z hz =>
    Term.boundNames_subset_symbols (hmade.bound z hz)
  have hexpansion :
      (g.parts.expansionAt g.scope x).mapNames ρ = g.parts.expansionAt g.scope (ρ x) := by
    refine Signed.mapNames_expansionAt g.parts_eq (fun y hy => hnames y (hsymbols y hy))
      (fun y hy => hnames y (hscope y hy)) (fun z hz hmem => ?_) fun hstem => ?_
    · obtain ⟨d, hd, rfl⟩ := hledger.exists_draw_of_mem_scope g.goal_mem hmem
      exact hledger.fresh d hd (hbound _ hz)
    · -- names in use stay, so a name that is not in use goes to another such name
      have hfresh {y : String} (hy : y ∉ s.names.taken) :
          y ∉ g.source.signed.formula.boundNames := fun hmem =>
        hy (hledger.symbols_taken y (hbound y hmem))
      refine ⟨hfresh (hx hstem), hfresh fun hmem => hx hstem ?_⟩
      rwa [ρ.injective (hnames _ hmem)] at hmem
  have horigin : g.origin.relabel π = g.origin := by
    rw [Origin.relabel, origin, hids _ (g.lt_size hnumbered).2]
  rw [g.expansion_eq, g.parts.added_expansionAt g.scope _ x] at hnext
  rw [subtreeAt, Tableau.relabel_ofExpansion hnext, hids _ (g.lt_size hnumbered).1, horigin,
    hexpansion]
  rfl

end One

/-! ### Two rule applications -/

section Two

variable (g g' : Growth s) (h : s.tableau.WellNumbered) (hne : g'.goal ≠ g.goal)

/-- The rule application `g'` after `g`, which is at another goal. -/
def later : Growth g.session where
  goal := g'.goal
  above := g'.above
  source := g'.source
  parts := g'.parts
  expansion := g'.parts.expansionAt g'.scope (g.names.draw g'.parts.stem?).1
  names := (g.names.draw g'.parts.stem?).2
  goal_mem := (g.mem_spots_iff h.nodup).mpr (.inl ⟨g'.goal_mem, hne⟩)
  source_mem := g'.source_mem
  not_expanded := by
    have hold := Tableau.isExpandedOn_eq h.nodup g'.goal_mem g'.source.id
    have hnew := Tableau.isExpandedOn_eq (g.wellNumbered h).nodup
      ((g.mem_spots_iff h.nodup).mpr (.inl ⟨g'.goal_mem, hne⟩)) g'.source.id
    rw [hnew, ← hold]
    exact g'.not_expanded
  parts_eq := g'.parts_eq
  expand_eq := Decomposition.expand_of_expand g'.expand_eq g.names

theorem subtree_later :
    (g.later g' h hne).subtree = g'.subtreeAt (s.tableau.size + g.expansion.added)
      (g.names.draw g'.parts.stem?).1 := by
  rw [subtree, g.size_session h.nodup]
  rfl

theorem names_later : (g.later g' h hne).session.names =
    ((s.names.draw g.parts.stem?).2.draw g'.parts.stem?).2 := by
  rw [← g.names_eq]
  rfl

theorem perform_later : (s.after [g.request]).perform g'.request =
    (.ok (.newGoals (g.later g' h hne).subtree.goals), (g.later g' h hne).session) := by
  rw [g.after_request h.nodup]
  exact (g.later g' h hne).perform_eq (g.wellNumbered h).nodup

theorem after_later : s.after [g.request, g'.request] = (g.later g' h hne).session :=
  (after_concat s [g.request] g'.request).trans (congrArg Prod.snd (g.perform_later g' h hne))

include h hne in
theorem name_draws_later : ((s.after [g.request]).draws g'.request).map Draw.name =
    g'.parts.stem?.toList.map fun _ => (g.names.draw g'.parts.stem?).1 := by
  rw [g.after_request h.nodup]
  change (g.session.draws (g.later g' h hne).request).map Draw.name = _
  rw [(g.later g' h hne).draws_request (g.wellNumbered h).nodup, name_draws]
  rfl

/-- The exchange of the new numbers. -/
def exchangeIds : Equiv.Perm NodeId :=
  swapBlocks s.tableau.size g.expansion.added g'.expansion.added

/-- The exchange of the new names. -/
def exchangeNames : Equiv.Perm String :=
  s.names.exchange g.parts.stem? g'.parts.stem?

variable {φ : Term} {ds : List Draw} (hledger : s.Ledger φ ds)

theorem exchangeNames_first :
    g.exchangeNames g' (s.names.draw g.parts.stem?).1 = (g'.names.draw g.parts.stem?).1 := by
  rw [g'.names_eq]
  exact s.names.exchange_first _ _

theorem exchangeNames_second :
    g.exchangeNames g' (g.names.draw g'.parts.stem?).1 = (s.names.draw g'.parts.stem?).1 := by
  rw [g.names_eq]
  exact s.names.exchange_second _ _

theorem exchangeIds_of_lt {id : NodeId} (hid : id < s.tableau.size) : g.exchangeIds g' id = id :=
  swapBlocks_of_lt hid

include hledger in
/-- What the first rule application puts in the place of its goal is, under the new labels, what it
puts there as the second one. -/
theorem relabel_subtree :
    g.subtree.relabel (g.exchangeIds g') (g.exchangeNames g') =
      (g'.later g h hne.symm).subtree := by
  rw [g.subtree_eq, subtree_later, ← g.exchangeNames_first g']
  exact g.relabel_subtreeAt h hledger (fun _ => g.exchangeIds_of_lt g')
    (fun i hi => swapBlocks_first hi) (fun _ => s.names.exchange_of_mem _ _) s.names.draw_not_mem

include hledger in
/-- What the second rule application puts in the place of its goal is, under the new labels, what it
puts there as the first one. -/
theorem relabel_subtree_later :
    (g.later g' h hne).subtree.relabel (g.exchangeIds g') (g.exchangeNames g') = g'.subtree := by
  rw [g'.subtree_eq, subtree_later, ← g.exchangeNames_second g']
  refine g'.relabel_subtreeAt h hledger (fun _ => g.exchangeIds_of_lt g')
    (fun i hi => swapBlocks_second hi) (fun _ => s.names.exchange_of_mem _ _) fun hstem hmem => ?_
  exact g.names.draw_not_mem hstem (g.draws_spec.mem_taken_iff.mpr (.inr hmem))

include hledger in
/-- Both orders lead to the same tableau, but for the new labels. -/
theorem relabel_later (hsourced : s.Sourced) :
    (g.later g' h hne).session.tableau.relabel (g.exchangeIds g') (g.exchangeNames g') =
      (g'.later g h hne.symm).session.tableau := by
  have hself : s.tableau.relabel (g.exchangeIds g') (g.exchangeNames g') = s.tableau :=
    relabel_tableau h hledger hsourced (fun _ => g.exchangeIds_of_lt g')
      fun _ => s.names.exchange_of_mem _ _
  have hgoal := g.exchangeIds_of_lt g' (g.lt_size h).1
  have hgoal' := g.exchangeIds_of_lt g' (g'.lt_size h).1
  have hinjective := (g.exchangeIds g').injective
  calc
    _ = ((s.tableau.graft g.goal g.subtree).graft g'.goal (g.later g' h hne).subtree).relabel
        (g.exchangeIds g') (g.exchangeNames g') := rfl
    _ = (s.tableau.graft g.goal (g'.later g h hne.symm).subtree).graft g'.goal g'.subtree := by
      rw [Tableau.relabel_graft hinjective, Tableau.relabel_graft hinjective, hself, hgoal, hgoal',
        g.relabel_subtree_later g' h hne hledger, g.relabel_subtree g' h hne hledger]
    _ = (s.tableau.graft g'.goal g'.subtree).graft g.goal (g'.later g h hne.symm).subtree := by
      -- what takes the place of one goal does not have the other
      refine Tableau.graft_comm hne.symm ?_ ?_ s.tableau
      · rw [subtree_later]
        exact Tableau.not_mem_goals_ofExpansion hne (Nat.lt_add_right _ (g'.lt_size h).1)
      · exact Tableau.not_mem_goals_ofExpansion hne.symm (g.lt_size h).1

end Two

end Growth

/-! ### Two requests in either order -/

/-- What two orders of two requests have to do with each other, where `π` relates the numbers and
`ρ` the names after `a` and `b` to those after `b` and `a`. -/
structure Exchange (s : Session) (a b : Request) (π : Equiv.Perm NodeId) (ρ : Equiv.Perm String) :
    Prop where
  /-- The first request is accepted also after the other, with the same new goals. -/
  accepted_left : ∃ goals, (s.perform a).1 = .ok (.newGoals goals) ∧
    ((s.after [b]).perform a).1 = .ok (.newGoals (goals.map π))
  /-- The second request is accepted also before the other, with the same new goals. -/
  accepted_right : ∃ goals, ((s.after [a]).perform b).1 = .ok (.newGoals goals) ∧
    (s.perform b).1 = .ok (.newGoals (goals.map π))
  /-- The tableaux are the same, but for new numbers and new names. -/
  tableau_eq : (s.after [a, b]).tableau.relabel π ρ = (s.after [b, a]).tableau
  ids_fixed : ∀ id < s.tableau.size, π id = id
  names_fixed : ∀ x ∈ s.names.taken, ρ x = x
  draws_left : ((s.draws a).map Draw.name).map ρ = ((s.after [b]).draws a).map Draw.name
  draws_right : (((s.after [a]).draws b).map Draw.name).map ρ = (s.draws b).map Draw.name
  /-- Only where both requests draw a name, other names are drawn. -/
  eq_refl : s.draws a = [] ∨ s.draws b = [] → ρ = Equiv.refl String
  taken_iff : ∀ x, ρ x ∈ (s.after [b, a]).names.taken ↔ x ∈ (s.after [a, b]).names.taken
  issued_eq : (s.after [b, a]).names.issued = (s.after [a, b]).names.issued

namespace Growth

variable {φ : Term} {ds : List Draw} (g g' : Growth s)

theorem exchange (h : s.tableau.WellNumbered) (hledger : s.Ledger φ ds) (hsourced : s.Sourced)
    (hne : g'.goal ≠ g.goal) :
    s.Exchange g.request g'.request (g.exchangeIds g') (g.exchangeNames g') := by
  refine ⟨?accepted_left, ?accepted_right, ?tableau, fun _ => g.exchangeIds_of_lt g',
    fun _ => s.names.exchange_of_mem _ _, ?draws_left, ?draws_right, ?refl, ?taken, ?issued⟩
  case accepted_left =>
    refine ⟨g.subtree.goals, congrArg Prod.fst (g.perform_eq h.nodup), ?_⟩
    rw [g'.perform_later g h hne.symm, ← Tableau.goals_relabel, g.relabel_subtree g' h hne hledger]
  case accepted_right =>
    refine ⟨_, congrArg Prod.fst (g.perform_later g' h hne), ?_⟩
    rw [g'.perform_eq h.nodup, ← Tableau.goals_relabel, g.relabel_subtree_later g' h hne hledger]
  case tableau =>
    rw [g.after_later g' h hne, g'.after_later g h hne.symm]
    exact g.relabel_later g' h hne hledger hsourced
  case draws_left =>
    rw [g.draws_request h.nodup, g.name_draws, g'.name_draws_later g h hne.symm, List.map_map]
    exact congrArg (fun x => g.parts.stem?.toList.map fun _ => x) (g.exchangeNames_first g')
  case draws_right =>
    rw [g'.draws_request h.nodup, g'.name_draws, g.name_draws_later g' h hne, List.map_map]
    exact congrArg (fun x => g'.parts.stem?.toList.map fun _ => x) (g.exchangeNames_second g')
  case refl =>
    rw [g.draws_request h.nodup, g'.draws_request h.nodup, draws_eq_nil_iff, draws_eq_nil_iff]
    exact s.names.exchange_eq_refl
  case taken =>
    intro x
    rw [g.after_later g' h hne, g'.after_later g h hne.symm, names_later, names_later]
    exact s.names.mem_taken_exchange _ _
  case issued =>
    rw [g.after_later g' h hne, g'.after_later g h hne.symm, names_later, names_later]
    exact s.names.issued_exchange _ _

end Growth

/-- Two accepted rule applications at different goals are each accepted after the other, and lead to
the same tableau in either order, but for the new numbers and, if both draw a name, the two new
names. -/
theorem exchange_after (φ : Term) (rs : List Request) {rule rule' : Rule}
    {goal goal' source source' : NodeId} {goals goals' : List NodeId} (hne : goal ≠ goal')
    (h : (((ofFormula φ).after rs).applyRule rule goal source).1 = .ok goals)
    (h' : (((ofFormula φ).after rs).applyRule rule' goal' source').1 = .ok goals') :
    ∃ π ρ, ((ofFormula φ).after rs).Exchange (.applyRule rule goal source)
      (.applyRule rule' goal' source') π ρ := by
  have hnumbered := wellNumbered_after φ rs
  rcases applyRule_effect hnumbered.nodup rule goal source with ⟨e, he⟩ | ⟨g, rfl, rfl, rfl, -⟩
  · rw [he] at h
    cases h
  rcases applyRule_effect hnumbered.nodup rule' goal' source' with ⟨e, he⟩ | ⟨g', rfl, rfl, rfl, -⟩
  · rw [he] at h'
    cases h'
  exact ⟨g.exchangeIds g', g.exchangeNames g',
    g.exchange g' hnumbered (ledger_after φ rs) (sourced_after φ rs) hne.symm⟩

/-- A run that takes `twoDiagonals` to two goals. -/
def twoDiagonalsForked : List Request :=
  [.applyRule .alpha 1 0, .applyRule .delta 3 1, .applyRule .beta 4 2]

/-- Whichever rule comes first draws the next number, so both names depend on the order. -/
theorem exchange_twoDiagonals :
    ((ofFormula twoDiagonals).after twoDiagonalsForked).drawn
        [.applyRule .gamma 6 4, .applyRule .gamma 7 5] =
      [⟨.gamma, 6, "Y_2"⟩, ⟨.gamma, 7, "Z_3"⟩] ∧
    ((ofFormula twoDiagonals).after twoDiagonalsForked).drawn
        [.applyRule .gamma 7 5, .applyRule .gamma 6 4] =
      [⟨.gamma, 7, "Z_2"⟩, ⟨.gamma, 6, "Y_3"⟩] ∧
    ∃ π ρ, ((ofFormula twoDiagonals).after twoDiagonalsForked).Exchange (.applyRule .gamma 6 4)
      (.applyRule .gamma 7 5) π ρ := by
  have h : (((ofFormula twoDiagonals).after twoDiagonalsForked).applyRule .gamma 6 4).1 =
      .ok [8] := by
    decide +kernel
  have h' : (((ofFormula twoDiagonals).after twoDiagonalsForked).applyRule .gamma 7 5).1 =
      .ok [8] := by
    decide +kernel
  exact ⟨by decide +kernel, by decide +kernel,
    exchange_after twoDiagonals twoDiagonalsForked (by decide) h h'⟩

end Session

end SignedTableaux
