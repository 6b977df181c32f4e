import SignedTableaux.Proofs.Session.Draw

/-!
# Names of a session

A rule draws a name that is not in use: no symbol of the formula to be proved, no name drawn before,
and no name that a closing substitution brought in. So no rule captures a variable, and no binder is
ever renamed: all names of an entry come from the formula or were drawn, and a variable is free in
an entry only below the place where it was drawn.

## Main definitions

* `Session.Ledger` — the drawn names account for all names of a session
* `Session.NamesApart` — what the names of a session have to do with its run

## Main results

* `Session.Growth.ledger`, `Session.Closing.ledger` — one step
* `Session.ledger_after` — a whole run
* `Session.namesApart_after` — the names of a session after every run
-/

namespace SignedTableaux

namespace Session

variable {s : Session} {r : Request}

/-! ### The ledger of drawn names -/

/-- The drawn names account for all names of a session for `φ`: they are new and are used once, for
one entry each, and all entries are made from `φ` with them. -/
structure Ledger (s : Session) (φ : Term) (ds : List Draw) : Prop where
  /-- No name of the formula is drawn. -/
  symbols_taken : ∀ x ∈ φ.symbols, x ∈ s.names.taken
  /-- No drawn name is drawn again. -/
  taken : ∀ d ∈ ds, d.name ∈ s.names.taken
  fresh : ∀ d ∈ ds, d.name ∉ φ.symbols
  nodup : (ds.map Draw.name).Nodup
  issued_eq : s.names.issued = ds.length
  /-- One name is drawn for each entry of a rule that draws one. -/
  entries_perm : (ds.map Draw.entry).Perm ((s.tableau.entries.filter Entry.isNamed).map Entry.id)
  instances : ∀ d ∈ ds, ∃ e above, ⟨e.id, .entry e, above⟩ ∈ s.tableau.spots ∧ d.IsFor e above
  /-- Only drawn names are introduced. -/
  introduced : ∀ e ∈ s.tableau.entries, ∀ x, e.introduced = some x → ⟨.gamma, e.id, x⟩ ∈ ds
  /-- All other names of an entry are those of the formula. -/
  made : ∀ e above, ⟨e.id, .entry e, above⟩ ∈ s.tableau.spots →
    e.signed.formula.MadeFrom φ (skolems ds) ((e :: above).filterMap Entry.introduced)

variable {φ : Term} {ds : List Draw}

namespace Ledger

/-- The variables introduced at and above a spot were drawn. -/
theorem exists_draw_of_mem_scope {p : Spot} {x : String} (h : s.Ledger φ ds)
    (hp : p ∈ s.tableau.spots) (hx : x ∈ p.branch.filterMap Entry.introduced) :
    ∃ d ∈ ds, d.name = x := by
  obtain ⟨e, he, hex⟩ := List.mem_filterMap.mp hx
  exact ⟨_, h.introduced e (Tableau.mem_entries_of_mem_branch hp he) x hex, rfl⟩

theorem scope_taken {p : Spot} (h : s.Ledger φ ds) (hp : p ∈ s.tableau.spots) :
    ∀ x ∈ p.branch.filterMap Entry.introduced, x ∈ s.names.taken := by
  intro x hx
  obtain ⟨d, hd, rfl⟩ := h.exists_draw_of_mem_scope hp hx
  exact h.taken d hd

/-- An entry above a spot is made from what is in scope there. -/
theorem made_above {p : Spot} {e : Entry} (h : s.Ledger φ ds) (hp : p ∈ s.tableau.spots)
    (he : e ∈ p.above) :
    e.signed.formula.MadeFrom φ (skolems ds) (p.above.filterMap Entry.introduced) := by
  obtain ⟨lower, upper, habove⟩ := List.append_of_mem he
  refine (h.made e upper (Tableau.mem_spots_of_above hp habove)).mono (List.Subset.refl _) ?_
  rw [habove, List.filterMap_append]
  exact List.subset_append_right _ _

/-- An entry introduces just the variable that was drawn for it. -/
theorem introduced_iff {e : Entry} {x : String} (h : s.Ledger φ ds) (hnodup : s.tableau.ids.Nodup)
    (he : e ∈ s.tableau.entries) : e.introduced = some x ↔ ⟨.gamma, e.id, x⟩ ∈ ds := by
  refine ⟨h.introduced e he x, fun hd => ?_⟩
  obtain ⟨e', above, hspot, hid, hintroduced, -⟩ := h.instances _ hd
  obtain rfl := Tableau.entry_eq_of_id_eq hnodup
    ((Tableau.mem_entries_iff []).mpr ⟨above, hspot⟩) he hid
  exact hintroduced

theorem start (φ : Term) : (ofFormula φ).Ledger φ [] where
  symbols_taken _ hx := hx
  taken := by simp
  fresh := by simp
  nodup := List.nodup_nil
  issued_eq := rfl
  entries_perm := by simp [ofFormula, Tableau.start, Tableau.entries, Entry.isNamed]
  instances := by simp
  introduced := by simp [ofFormula, Tableau.start, Tableau.entries]
  made e above hp := by
    obtain ⟨-, rfl, rfl⟩ : _ ∧ e = _ ∧ above = [] := by
      simpa [ofFormula, Tableau.start, Tableau.spots, Tableau.spotsFrom] using hp
    exact .refl φ

end Ledger

/-! ### One step -/

theorem skolems_append (ds ds' : List Draw) : skolems (ds ++ ds') = skolems ds ++ skolems ds' := by
  simp [skolems]

/-- What is put in for a bound name is made from the drawn name and what is in scope. -/
theorem Draw.madeFrom_image (d : Draw) (scope : List String) (hrule : d.rule.drawsName = true) :
    (d.image scope).MadeFrom φ (skolems [d]) (d.introduced.toList ++ scope) := by
  obtain ⟨rule, entry, name⟩ := d
  cases rule with
  | alpha | beta => cases hrule
  | gamma =>
    have himage : (Draw.mk .gamma entry name).image scope = .var name := rfl
    rw [himage]
    exact ⟨by simp, by simp, by simp, by simp [Draw.introduced]⟩
  | delta =>
    have himage : (Draw.mk .delta entry name).image scope = .fn name (scope.map .var) := rfl
    rw [himage]
    exact ⟨by simp, by simp, by simp [skolems],
      fun x hx => .inr (List.mem_append_right _ (by simpa using hx))⟩

theorem Draw.freeVars_image (d : Draw) (scope : List String) :
    ∀ z ∈ (d.image scope).freeVars, z = d.name ∨ z ∈ scope := by
  intro z hz
  unfold Draw.image at hz
  split at hz
  · exact .inl (Term.mem_freeVars_var.mp hz)
  · exact .inr (by simpa using hz)

theorem Growth.made_of_fragments {ds' : List Draw} (g : Growth s) (hnodup : s.tableau.ids.Nodup)
    (h : s.Ledger φ ds)
    (hfragments : ∀ f ∈ g.expansion.fragments, f.signed.formula.MadeFrom φ (skolems (ds ++ ds'))
      (f.introduced.toList ++ g.above.filterMap Entry.introduced)) (e : Entry) (above : List Entry)
    (hp : ⟨e.id, .entry e, above⟩ ∈ g.session.tableau.spots) :
    e.signed.formula.MadeFrom φ (skolems (ds ++ ds'))
      ((e :: above).filterMap Entry.introduced) := by
  rcases (g.mem_spots_iff hnodup).mp hp with ⟨hold, -⟩ | hnew
  · refine (h.made e above hold).mono ?_ (List.Subset.refl _)
    rw [skolems_append]
    exact List.subset_append_left _ _
  · obtain ⟨f, hf, he⟩ := Tableau.exists_fragment_of_mem_ofExpansion hnew rfl
    have hsigned : e.signed = f.signed := congrArg Entry.signed he
    have hintroduced : e.introduced = f.introduced := congrArg Entry.introduced he
    rw [hsigned]
    refine (hfragments f hf).mono (List.Subset.refl _) fun x hx => ?_
    rcases List.mem_append.mp hx with hx | hx
    · exact List.mem_filterMap.mpr ⟨e, List.mem_cons_self, by simpa [hintroduced] using hx⟩
    · have hsublist := (Tableau.suffix_above hnew).sublist.trans (List.sublist_cons_self e _)
      exact (hsublist.filterMap Entry.introduced).subset hx

/-- An expansion with one fragment puts an entry and a goal in the place of the goal. -/
theorem Growth.subtree_of_single (g : Growth s) {f : Fragment} (h : g.expansion = .linear f []) :
    g.subtree = .step (Tableau.entryOf g.goal ⟨g.parts.rule, g.source.id⟩ f)
      (.goal s.tableau.size none) := by
  rw [Growth.subtree, h]
  rfl

namespace Growth.Draws

variable {g : Growth s} {ds' : List Draw}

theorem mem_taken_iff (hd : g.Draws ds') {x : String} :
    x ∈ g.names.taken ↔ x ∈ ds'.map Draw.name ∨ x ∈ s.names.taken := by
  cases hd with
  | nothing _ hnames => simp [hnames]
  | name d stem _ hd hnames => simp [hnames, hd, NameSupply.mem_taken_issue]

theorem not_taken (hd : g.Draws ds') : ∀ d ∈ ds', d.name ∉ s.names.taken := by
  cases hd with
  | nothing => simp
  | name d stem _ hd =>
    rw [hd]
    simpa using s.names.issue_not_mem stem

theorem nodup (hd : g.Draws ds') : (ds'.map Draw.name).Nodup := by
  cases hd <;> simp

theorem issued_eq (hd : g.Draws ds') : g.names.issued = s.names.issued + ds'.length := by
  cases hd with
  | nothing _ hnames => rw [hnames]; rfl
  | name d stem _ _ hnames => rw [hnames]; rfl

/-- The new entries that come from a rule that draws a name. -/
theorem map_id_named (hd : g.Draws ds') :
    (g.subtree.entries.filter Entry.isNamed).map Entry.id = ds'.map Draw.entry := by
  cases hd with
  | nothing hrule =>
    have hnone : g.subtree.entries.filter Entry.isNamed = [] := by
      refine List.filter_eq_nil_iff.mpr fun e he => ?_
      obtain ⟨f, -, he⟩ := Tableau.exists_fragment_of_mem_entries he
      rw [he]
      simp [Entry.isNamed, Tableau.entryOf, hrule]
    rw [hnone]
    rfl
  | name d stem hrule hd _ _ hexpansion =>
    rw [g.subtree_of_single hexpansion, hd]
    simp [Tableau.entries, Tableau.entryOf, Entry.isNamed, hrule]

theorem introduced (hd : g.Draws ds') {e : Entry} {x : String} (he : e ∈ g.subtree.entries)
    (hx : e.introduced = some x) : ⟨.gamma, e.id, x⟩ ∈ ds' := by
  cases hd with
  | nothing _ _ hfragments =>
    obtain ⟨f, hf, he⟩ := Tableau.exists_fragment_of_mem_entries he
    obtain ⟨p, -, rfl⟩ := List.mem_map.mp (hfragments ▸ hf)
    rw [he] at hx
    cases hx
  | name d stem _ hd _ _ hexpansion =>
    rw [g.subtree_of_single hexpansion] at he
    obtain rfl := List.mem_singleton.mp he
    have hx : d.introduced = some x := hx
    have hrule : d.rule = .gamma := by
      by_contra hrule
      simp [Draw.introduced, hrule] at hx
    obtain rfl : d.name = x := by simpa [Draw.introduced, hrule] using hx
    refine List.mem_singleton.mpr ?_
    rw [← hrule, hd]
    rfl

/-- The entry that a name was drawn for. -/
theorem instances (hd : g.Draws ds') (hnodup : s.tableau.ids.Nodup) :
    ∀ d ∈ ds', ∃ e above, ⟨e.id, .entry e, above⟩ ∈ g.session.tableau.spots ∧ d.IsFor e above := by
  cases hd with
  | nothing => simp
  | name d stem _ hd _ hsource hexpansion =>
    intro d' hd'
    obtain rfl := List.mem_singleton.mp hd'
    have hspot := (g.mem_spots_iff hnodup).mpr (.inr (by
      rw [g.subtree_of_single hexpansion]
      exact List.mem_cons_self))
    exact ⟨_, g.above, hspot, by rw [hd]; rfl, rfl, g.source, g.source_mem, by rw [hd]; rfl,
      _, _, _, hsource, rfl⟩

/-- What the rule adds is made from the formula, with the drawn names. -/
theorem made (hd : g.Draws ds') (h : s.Ledger φ ds) :
    ∀ f ∈ g.expansion.fragments, f.signed.formula.MadeFrom φ (skolems (ds ++ ds'))
      (f.introduced.toList ++ g.above.filterMap Entry.introduced) := by
  have hsource := h.made_above g.goal_mem g.source_mem
  have hnew := hd.not_taken
  intro f hf
  cases hd with
  | nothing _ _ hfragments =>
    obtain ⟨p, hp, rfl⟩ := List.mem_map.mp (hfragments ▸ hf)
    simpa using Signed.madeFrom_parts g.parts_eq hsource p hp
  | name d stem hrule hd _ hq hexpansion =>
    rw [hexpansion] at hf
    obtain rfl := List.mem_singleton.mp hf
    rw [hq] at hsource
    rw [skolems_append]
    have hrule' : d.rule.drawsName = true := by rw [hd]; exact hrule
    have himage := (d.madeFrom_image (g.above.filterMap Entry.introduced) hrule' (φ := φ)).mono
      (List.subset_append_right (skolems ds) _) (List.Subset.refl _)
    refine hsource.substitute (List.subset_append_left _ _) (List.subset_append_right _ _) himage
      fun z hz => ?_
    rcases d.freeVars_image _ z hz with rfl | hz
    · exact fun hmem => hnew d List.mem_cons_self (h.symbols_taken _ hmem)
    · obtain ⟨d', hd', rfl⟩ := h.exists_draw_of_mem_scope g.goal_mem hz
      exact h.fresh d' hd'

end Growth.Draws

/-- A rule application keeps the ledger, with the names that it draws. -/
theorem Growth.ledger {ds' : List Draw} (g : Growth s) (hnodup : s.tableau.ids.Nodup)
    (h : s.Ledger φ ds) (hd : g.Draws ds') : g.session.Ledger φ (ds ++ ds') where
  symbols_taken x hx := hd.mem_taken_iff.mpr (.inr (h.symbols_taken x hx))
  taken d hmem := by
    refine hd.mem_taken_iff.mpr ?_
    rcases List.mem_append.mp hmem with hold | hnew
    · exact .inr (h.taken d hold)
    · exact .inl (List.mem_map_of_mem hnew)
  fresh d hmem := by
    rcases List.mem_append.mp hmem with hold | hnew
    · exact h.fresh d hold
    · exact fun hφ => hd.not_taken d hnew (h.symbols_taken _ hφ)
  nodup := by
    rw [List.map_append, List.nodup_append']
    refine ⟨h.nodup, hd.nodup, fun x hold hnew => ?_⟩
    obtain ⟨d, hd', rfl⟩ := List.mem_map.mp hold
    obtain ⟨d', hd'', heq⟩ := List.mem_map.mp hnew
    exact hd.not_taken d' hd'' (heq ▸ h.taken d hd')
  issued_eq := by
    change g.names.issued = _
    rw [hd.issued_eq, h.issued_eq, List.length_append]
  entries_perm := by
    have hperm := ((Tableau.entries_graft_perm g.subtree hnodup g.mem_goals).filter
      Entry.isNamed).map Entry.id
    rw [List.filter_append, List.map_append, hd.map_id_named] at hperm
    rw [List.map_append]
    exact (h.entries_perm.append_right _).trans hperm.symm
  instances d hmem := by
    rcases List.mem_append.mp hmem with hold | hnew
    · obtain ⟨e, above, hspot, hfor⟩ := h.instances d hold
      exact ⟨e, above, g.mem_spots_of_mem hspot, hfor⟩
    · exact hd.instances hnodup d hnew
  introduced e he x hx := by
    refine List.mem_append.mpr ?_
    rcases (g.mem_entries_iff hnodup).mp he with hold | hnew
    · exact .inl (h.introduced e hold x hx)
    · exact .inr (hd.introduced hnew hx)
  made := g.made_of_fragments hnodup h (hd.made h)

/-- A closure draws nothing; it only puts more names out of use. -/
theorem Closing.ledger (c : Closing s) (h : s.Ledger φ ds) : c.session.Ledger φ ds where
  symbols_taken x hx := s.names.mem_taken_reserve.mpr (.inr (h.symbols_taken x hx))
  taken d hd := s.names.mem_taken_reserve.mpr (.inr (h.taken d hd))
  fresh := h.fresh
  nodup := h.nodup
  issued_eq := h.issued_eq
  entries_perm := by
    change (ds.map Draw.entry).Perm (((s.tableau.closeBelow _ _).entries.filter _).map _)
    rw [Tableau.entries_closeBelow]
    exact h.entries_perm
  instances d hd := by
    obtain ⟨e, above, hspot, hfor⟩ := h.instances d hd
    exact ⟨e, above, Tableau.mem_spots_closeBelow_iff.mpr hspot, hfor⟩
  introduced e he := by
    rw [Closing.session, Tableau.entries_closeBelow] at he
    exact h.introduced e he
  made e above hp := h.made e above (Tableau.mem_spots_closeBelow_iff.mp hp)

/-! ### Whole runs -/

/-- A refused request draws nothing. -/
theorem draws_of_refused {e : ProofError} (h : s.perform r = (.error e, s)) : s.draws r = [] := by
  unfold draws
  rw [h]
  split
  · simp [NameSet.mem_def]
  · rfl

theorem draws_of_pair {ab : NodeId × NodeId} (h : r.pair? = some ab) : s.draws r = [] := by
  cases r with
  | applyRule | applyRuleNearest => cases h
  | close | closeWith => rfl

/-- The names that a run draws account for all names of the session after it. -/
theorem ledger_after (φ : Term) (rs : List Request) :
    ((ofFormula φ).after rs).Ledger φ ((ofFormula φ).drawn rs) := by
  induction rs using List.reverseRecOn with
  | nil => exact .start φ
  | append_singleton rs r ih =>
    have hnodup := (wellNumbered_after φ rs).nodup
    rw [drawn_concat, after_concat]
    rcases effect_after φ rs r with ⟨e, h⟩ | ⟨g, hrule, h, hgoal⟩ | ⟨c, hpair, h⟩
    · rw [h, draws_of_refused h, List.append_nil]
      exact ih
    · rw [h, g.draws_eq hrule hgoal h]
      exact g.ledger hnodup ih g.draws_spec
    · rw [h, draws_of_pair hpair, List.append_nil]
      exact c.ledger ih

/-! ### Names in use -/

theorem not_taken_of_mem_draws {d : Draw} (h : d ∈ s.draws r) : d.name ∉ s.names.taken := by
  unfold draws at h
  split at h
  · obtain ⟨x, hx, rfl⟩ := List.mem_map.mp h
    simpa using (List.mem_filter.mp hx).2
  · cases h

/-- A name in use stays in use. -/
theorem mem_taken_after {φ : Term} {pre rs : List Request} {x : String} (hpre : pre <+: rs)
    (hx : x ∈ ((ofFormula φ).after pre).names.taken) :
    x ∈ ((ofFormula φ).after rs).names.taken :=
  after_mono (P := fun s => x ∈ s.names.taken)
    (fun g _ h => g.draws_spec.mem_taken_iff.mpr (.inr h))
    (fun _ _ h => (NameSupply.mem_taken_reserve _).mpr (.inr h)) hpre hx

/-- What a closure puts in is in use afterwards. -/
theorem mem_taken_of_closure {x : String} {c : Closure} (heffect : s.Effect r)
    (h : (s.perform r).1 = .ok (.closure c)) (hx : x ∈ c.substitution.imageSymbols) :
    x ∈ (s.perform r).2.names.taken := by
  rcases heffect with ⟨e, h'⟩ | ⟨g, -, h', -⟩ | ⟨c', -, h'⟩ <;> rw [h'] at h
  · cases h
  · cases h
  · obtain rfl : c'.closure = c := Reply.closure.inj (Except.ok.inj h)
    rw [h']
    exact s.names.mem_taken_reserve.mpr (.inl hx)

/-- What the names of a session for `φ` have to do with its run. -/
structure NamesApart (φ : Term) (rs : List Request) : Prop where
  /-- A name is drawn once. -/
  nodup : (((ofFormula φ).drawn rs).map Draw.name).Nodup
  fresh : ∀ d ∈ (ofFormula φ).drawn rs, d.name ∉ φ.symbols
  /-- No name is drawn that an earlier closure has put in. -/
  not_put_in : ∀ pre r, pre ++ [r] <+: rs → ∀ d ∈ ((ofFormula φ).after pre).draws r,
    ∀ pre' r' c, pre' ++ [r'] <+: pre →
      (((ofFormula φ).after pre').perform r').1 = .ok (.closure c) →
        d.name ∉ c.substitution.imageSymbols
  /-- One name is drawn for each node that comes from the gamma or the delta rule. -/
  nodes_perm : (((ofFormula φ).drawn rs).map Draw.entry).Perm
    ((((ofFormula φ).after rs).tableau.nodes.filter Node.isNamed).map Node.id)
  issued_eq : ((ofFormula φ).after rs).names.issued =
    (((ofFormula φ).after rs).tableau.nodes.filter Node.isNamed).length
  /-- The node for which a name is drawn has the instance with this name. -/
  instances : ∀ d ∈ (ofFormula φ).drawn rs, ∃ e above,
    ((ofFormula φ).after rs).tableau.branch? d.entry = some (e :: above) ∧ d.IsFor e above
  /-- A node introduces just the name that the gamma rule has drawn for it. -/
  introduced_iff : ∀ node ∈ ((ofFormula φ).after rs).tableau.nodes, ∀ e, node.asEntry = some e →
    ∀ x, e.introduced = some x ↔ ⟨.gamma, node.id, x⟩ ∈ (ofFormula φ).drawn rs
  /-- All other names of a node are those of the formula. -/
  made : ∀ node ∈ ((ofFormula φ).after rs).tableau.nodes, ∀ e, node.asEntry = some e →
    e.signed.formula.MadeFrom φ (skolems ((ofFormula φ).drawn rs))
      (((ofFormula φ).after rs).tableau.freeVars node.id)

/-- Whatever a session was asked to do, its names are apart. -/
theorem namesApart_after (φ : Term) (rs : List Request) : NamesApart φ rs := by
  have hledger := ledger_after φ rs
  have hnodup := (wellNumbered_after φ rs).nodup
  have hperm := hledger.entries_perm
  rw [← Tableau.map_id_filter_nodes] at hperm
  refine ⟨hledger.nodup, hledger.fresh, ?put_in, hperm, ?issued, ?instances, ?introduced, ?made⟩
  case put_in =>
    intro pre r _ d hd pre' r' c hpre' hclosure hmem
    have htaken := mem_taken_of_closure (effect_after φ pre' r') hclosure hmem
    rw [← after_concat] at htaken
    exact not_taken_of_mem_draws hd (mem_taken_after hpre' htaken)
  case issued =>
    have hlength := hperm.length_eq
    rwa [List.length_map, List.length_map, ← hledger.issued_eq] at hlength
  case instances =>
    intro d hd
    obtain ⟨e, above, hspot, hfor⟩ := hledger.instances d hd
    refine ⟨e, above, ?_, hfor⟩
    rw [← hfor.1]
    exact Tableau.branch?_of_mem_spots hnodup hspot
  case introduced =>
    intro node hnode e he x
    obtain ⟨hid, above, hspot⟩ := Tableau.exists_above_of_mem_nodes hnode he
    rw [hid]
    exact hledger.introduced_iff hnodup ((Tableau.mem_entries_iff []).mpr ⟨above, hspot⟩)
  case made =>
    intro node hnode e he
    obtain ⟨hid, above, hspot⟩ := Tableau.exists_above_of_mem_nodes hnode he
    rw [hid, Tableau.freeVars, Tableau.branch?_of_mem_spots hnodup hspot]
    exact hledger.made e above hspot

/-- The formula `(exists w. forall x. P(w, x)) -> (exists y. P(y, y)) & (exists z. P(z, z))`. -/
def twoDiagonals : Term :=
  .binary .implies
    (.quantified .existential "w" (.quantified .universal "x" (.pred "P" [.var "w", .var "x"])))
    (.binary .and (.quantified .existential "y" (.pred "P" [.var "y", .var "y"]))
      (.quantified .existential "z" (.pred "P" [.var "z", .var "z"])))

/-- The left branch is closed by a substitution that also uses the name `Z_4`. -/
def twoDiagonalsRun : List Request :=
  [.applyRule .alpha 1 0, .applyRule .delta 3 1, .applyRule .beta 4 2, .applyRule .gamma 6 3,
    .applyRule .gamma 8 4, .close 6 8 "X_2/f_1 | Y_3/f_1 | U/Z_4", .applyRule .gamma 7 5]

/-- A name that a closure used is passed over on another branch. -/
theorem namesApart_twoDiagonals :
    (ofFormula twoDiagonals).drawn twoDiagonalsRun = [⟨.delta, 3, "f_1"⟩, ⟨.gamma, 6, "X_2"⟩,
        ⟨.gamma, 8, "Y_3"⟩, ⟨.gamma, 7, "Z_5"⟩] ∧
      NamesApart twoDiagonals twoDiagonalsRun :=
  ⟨by decide +kernel, namesApart_after twoDiagonals twoDiagonalsRun⟩

end Session

end SignedTableaux
