import SignedTableaux.Console.Transcript
import SignedTableaux.Proofs.Session.Refusals

/-!
# Lines that leave no trace

A script is a list of lines that are given to the console one after the other. Some lines only ask
for something to be shown, and some are answered with a complaint. Neither kind leaves a trace:
without these lines, every other line gets the same answer as before, and the session at the end is
the same.

That a line which is complained about changes nothing is not for the console to see to, which goes
on with whatever session a request leaves. It rests on what the requests do in a session that can be
reached.

## Main definitions

* `Verb.reads`, `Console.isReading` — commands that show something, and their lines
* `Console.Reached` — whether a session can be reached by requests
* `Console.Leads`, `Console.Step` — what a command can lead to, and the four things that a line can
  do
* `Console.log` — the lines of a script that are answered, with their answers, and the last session

## Main results

* `Console.step_of_reached` — every line does one of the four things
* `Console.log_filter_of_reached` — dropping lines without a trace, from every session that can be
  reached
* `Console.dialogue_eq_log` — what a dialogue puts out is in the log of its lines
* `Console.log_filter_matters` — dropping lines without a trace, from a fresh console
-/

namespace SignedTableaux

/-- Whether a command only shows something. -/
def Verb.reads : Verb → Bool
  | .nothing | .help | .outline | .graph | .goals | .rules => true
  | .quit | .new | .apply | .close => false

/-- Whether an answer is a complaint. -/
def Answer.isComplaint : Answer → Bool
  | .complain _ => true
  | .say _ | .leave => false

/-- A request that is refused leaves every session that can be reached as it is. -/
theorem Session.perform_of_error {φ : Term} {rs : List Request} {r : Request} {e : ProofError}
    (h : (((ofFormula φ).after rs).perform r).1 = .error e) :
    (((ofFormula φ).after rs).perform r).2 = (ofFormula φ).after rs := by
  rcases effect_after φ rs r with ⟨e', h'⟩ | ⟨g, -, h'⟩ | ⟨c, -, h'⟩
  · rw [h']
  · rw [h'] at h
    cases h
  · rw [h'] at h
    cases h

namespace Console

variable {session : Option Session} {line arguments : String}

/-! ### Commands that work on the session -/

/-- Whether the session of a console, if there is one, can be reached by requests. -/
def Reached (session : Option Session) : Prop :=
  ∀ s, session = some s → ∃ φ rs, s = (Session.ofFormula φ).after rs

theorem Reached.none : Reached none := by
  rintro _ ⟨⟩

theorem Reached.ofFormula (φ : Term) : Reached (some (.ofFormula φ)) := fun _ h =>
  ⟨φ, [], (Option.some.inj h).symm⟩

theorem Reached.perform {s : Session} (h : Reached (some s)) (r : Request) :
    Reached (some (s.perform r).2) := by
  obtain ⟨φ, rs, rfl⟩ := h s rfl
  rintro _ ⟨⟩
  exact ⟨φ, rs ++ [r], (Session.after_concat _ rs r).symm⟩

theorem current_eq_ok {s : Session} : current session = .ok s ↔ session = some s := by
  cases session <;> simp [current]

/-- What a command that works on the session leads to: a new proof, or what a request does. -/
inductive Leads (session : Option Session) : Except String String → Session → Prop
  | started (φ : Term) (text : String) : Leads session (.ok text) (.ofFormula φ)
  | performed {s : Session} {result : Except String String} (r : Request) (hs : session = some s)
      (herror : ∀ text, result = .error text → ∃ e, (s.perform r).1 = .error e) :
      Leads session result (s.perform r).2

/-- A request that is told in words. -/
theorem Leads.of_perform {α : Type} {s : Session} {r : Request}
    {outcome : Except ProofError α × Session} {reply : α → Reply}
    (h : s.perform r = outcome.map (·.map reply) id) (describe : α → String)
    (complaint : ProofError → String) :
    Leads (some s) ((outcome.1.map describe).mapError complaint) outcome.2 := by
  have hsession : outcome.2 = (s.perform r).2 := by
    rw [h]
    rfl
  rw [hsession]
  refine .performed r rfl fun text htext => ?_
  obtain ⟨e, he, -⟩ := mapError_eq_error.mp htext
  rw [h]
  exact ⟨e, map_eq_error.mpr (map_eq_error.mp he)⟩

variable {result : Except String String} {s : Session}

theorem leads_new (h : new arguments = .ok (result, s)) : Leads session result s := by
  unfold new at h
  split at h
  · next hstart =>
    obtain ⟨φ, -, rfl⟩ := Session.exists_formula_of_start hstart
    obtain ⟨rfl, rfl⟩ := Prod.mk.inj (Except.ok.inj h)
    exact .started φ _
  · cases h

theorem leads_apply (h : apply session arguments = .ok (result, s)) : Leads session result s := by
  simp only [apply, bind_eq_ok, current_eq_ok] at h
  obtain ⟨rule, -, goal, -, s, rfl, h⟩ := h
  split at h
  · obtain ⟨rfl, rfl⟩ := Prod.mk.inj (Except.ok.inj h)
    exact .of_perform (r := .applyRuleNearest rule goal) rfl _ _
  · obtain ⟨outcome, houtcome, h⟩ := bind_eq_ok.mp h
    obtain ⟨rfl, rfl⟩ := Prod.mk.inj (Except.ok.inj h)
    obtain ⟨source, -, rfl⟩ := map_eq_ok.mp houtcome
    exact .of_perform (r := .applyRule rule goal source) rfl _ _

theorem leads_close (h : close session arguments = .ok (result, s)) : Leads session result s := by
  simp only [close, bind_eq_ok, current_eq_ok] at h
  obtain ⟨a, -, b, -, s, rfl, h⟩ := h
  obtain ⟨rfl, rfl⟩ := Prod.mk.inj (Except.ok.inj h)
  exact .of_perform (r := .close a b _) rfl _ _

/-! ### Lines -/

/-- The command of a line. -/
def verb? (line : String) : Option Verb :=
  Verb.ofWord? (splitWord line).1

/-- Whether a line only asks for something to be shown. -/
def isReading (line : String) : Bool :=
  (verb? line).any Verb.reads

/-- The answer to a line and the session afterwards, in four cases. -/
inductive Step (session : Option Session) (line : String) : Answer × Option Session → Prop
  | complained (text : String) : Step session line (.complain text, session)
  | shown (text : String) (hreading : isReading line) : Step session line (.say text, session)
  | left (hverb : verb? line = some .quit) : Step session line (.leave, session)
  | changed (text : String) (s : Session) (hreading : ¬ isReading line)
      (hreached : Reached (some s)) :
      Step session line (.say text, some s)

theorem isReading_of_verb? {verb : Verb} (h : verb? line = some verb) :
    isReading line = verb.reads := by
  rw [isReading, h, Option.any_some]

theorem step_reading (hreading : isReading line) (result : Except String String) :
    Step session line (reading session result) := by
  cases result with
  | ok text => exact .shown text hreading
  | error text => exact .complained text

/-- A command that works on the session complains and changes nothing, or leads to a session that
can be reached. -/
theorem step_changing {outcome : Except String (Except String String × Session)}
    (hreached : Reached session) (hreading : ¬ isReading line)
    (houtcome : ∀ {result s}, outcome = .ok (result, s) → Leads session result s) :
    Step session line (changing session outcome) := by
  rcases outcome with text | ⟨result, s'⟩
  · exact .complained text
  · cases houtcome rfl with
    | started φ text => exact .changed text _ hreading (.ofFormula φ)
    | @performed s _ r hs herror =>
      subst hs
      cases result with
      | ok text => exact .changed text _ hreading (hreached.perform r)
      | error text =>
        obtain ⟨e, he⟩ := herror text rfl
        obtain ⟨φ, rs, rfl⟩ := hreached s rfl
        rw [Session.perform_of_error he]
        exact .complained text

/-- Every line does one of four things to a console whose session can be reached. -/
theorem step_of_reached (hreached : Reached session) (line : String) :
    Step session line (execute session line) := by
  unfold execute
  cases hverb : verb? line with
  | none =>
    simp only [show Verb.ofWord? (splitWord line).1 = none from hverb]
    exact .complained _
  | some verb =>
    have hreading := isReading_of_verb? hverb
    simp only [show Verb.ofWord? (splitWord line).1 = some verb from hverb]
    cases verb with
    | nothing | help => exact .shown _ hreading
    | quit => exact .left hverb
    | outline | graph | goals | rules => exact step_reading hreading _
    | new => exact step_changing hreached (ne_true_of_eq_false hreading) leads_new
    | apply => exact step_changing hreached (ne_true_of_eq_false hreading) leads_apply
    | close => exact step_changing hreached (ne_true_of_eq_false hreading) leads_close

/-! ### Scripts -/

/-- The lines of a script that are answered, each with its answer, and the session afterwards. No
line is answered once the console is left. -/
def log (session : Option Session) : List String → List (String × Answer) × Option Session
  | [] => ([], session)
  | line :: lines =>
    match execute session line with
    | (.leave, session) => ([(line, .leave)], session)
    | (answer, session) =>
      let (turns, final) := log session lines
      ((line, answer) :: turns, final)

/-- Whether an answered line may leave a trace: it is neither complained about nor a question. -/
def matters (turn : String × Answer) : Bool :=
  !turn.2.isComplaint && !isReading turn.1

theorem log_cons {answer : Answer} {session' : Option Session} (lines : List String)
    (h : execute session line = (answer, session')) (hanswer : answer ≠ .leave) :
    log session (line :: lines) =
      ((line, answer) :: (log session' lines).1, (log session' lines).2) := by
  rw [log, h]
  cases answer with
  | leave => exact absurd rfl hanswer
  | say | complain => rfl

theorem log_of_leave {session' : Option Session} (lines : List String)
    (h : execute session line = (.leave, session')) :
    log session (line :: lines) = ([(line, .leave)], session') := by
  rw [log, h]

/-- Without the lines that leave no trace, all others are answered as before. -/
theorem log_filter_of_reached (hreached : Reached session) (lines : List String) :
    log session (((log session lines).1.filter matters).map Prod.fst) =
      ((log session lines).1.filter matters, (log session lines).2) := by
  induction lines generalizing session with
  | nil => rfl
  | cons line lines ih =>
    -- a line that is dropped leaves the session to the others that it found
    have hstep := step_of_reached hreached line
    generalize hexecute : execute session line = outcome at hstep
    cases hstep with
    | complained text =>
      have hmatters : ¬ matters (line, .complain text) := by simp [matters, Answer.isComplaint]
      rw [log_cons lines hexecute (by simp), List.filter_cons_of_neg hmatters]
      exact ih hreached
    | shown text hreading =>
      have hmatters : ¬ matters (line, .say text) := by simp [matters, hreading]
      rw [log_cons lines hexecute (by simp), List.filter_cons_of_neg hmatters]
      exact ih hreached
    | left hverb =>
      have hmatters : matters (line, .leave) := by
        rw [matters, isReading_of_verb? hverb]
        rfl
      rw [log_of_leave lines hexecute, List.filter_cons_of_pos hmatters]
      exact log_of_leave [] hexecute
    | changed text s hreading hreached' =>
      have hmatters : matters (line, .say text) := by simp [matters, Answer.isComplaint, hreading]
      rw [log_cons lines hexecute (by simp), List.filter_cons_of_pos hmatters, List.map_cons,
        log_cons _ hexecute (by simp), ih hreached']

theorem map_fst_log (hreached : Reached session) (lines : List String)
    (hquit : ∀ line ∈ lines, verb? line ≠ some .quit) :
    (log session lines).1.map Prod.fst = lines := by
  induction lines generalizing session with
  | nil => rfl
  | cons line lines ih =>
    obtain ⟨hline, hlines⟩ := List.forall_mem_cons.mp hquit
    have hstep := step_of_reached hreached line
    generalize hexecute : execute session line = outcome at hstep
    cases hstep with
    | complained text | shown text =>
      rw [log_cons lines hexecute (by simp), List.map_cons, ih hreached hlines]
    | left hverb => exact absurd hverb hline
    | changed text s _ hreached' =>
      rw [log_cons lines hexecute (by simp), List.map_cons, ih hreached' hlines]

/-! ### Dialogues -/

/-- What an answer puts on the output, together with the next prompt. -/
def display (answer : Answer) : String :=
  if answer = .leave then "" else spoken answer ++ prompt

theorem turn_utf8 {answer : Answer} {session' : Option Session}
    (h : execute session (String.ofList (Text.trim line.toList)) = (answer, session')) :
    turn session line.toByteArray.data.toList =
      if answer = .leave then .stop "" 0
      else .next session' (spoken answer ++ prompt) (complained answer) := by
  have hdecode : String.fromUTF8? ⟨line.toByteArray.data.toList.toArray⟩ = some line := by
    simpa [String.fromUTF8?] using ⟨line.isValidUTF8, rfl⟩
  simp only [turn, hdecode, h]
  cases answer <;> rfl

/-- A dialogue puts out what is in the log of its lines. -/
theorem dialogue_eq_log (session : Option Session) (output complaints : String)
    (lines : List String) :
    dialogue session output complaints (lines.map fun line => line.toByteArray.data.toList) =
      let turns := (log session (lines.map fun line => String.ofList (Text.trim line.toList))).1
      ⟨output ++ String.join (turns.map fun turn => display turn.2),
        complaints ++ String.join (turns.map fun turn => complained turn.2), 0⟩ := by
  induction lines generalizing session output complaints with
  | nil => simp [dialogue, log]
  | cons line lines ih =>
    rcases hexecute : execute session (String.ofList (Text.trim line.toList)) with
      ⟨answer, session'⟩
    rw [List.map_cons, List.map_cons, dialogue, turn_utf8 hexecute]
    by_cases hleave : answer = .leave
    · subst hleave
      simp [log_of_leave _ hexecute, display, complained]
    · rw [if_neg hleave, log_cons _ hexecute hleave]
      simp [ih, display, hleave, String.append_assoc]

/-! ### From a fresh console -/

/-- Without the lines that are complained about and those that only ask for something to be shown,
every other line of a script is answered as before, and the script ends with the same session. Every
line is answered unless some line leaves the console. -/
theorem log_filter_matters (lines : List String) :
    log none (((log none lines).1.filter matters).map Prod.fst) =
        ((log none lines).1.filter matters, (log none lines).2) ∧
      ((∀ line ∈ lines, verb? line ≠ some .quit) → (log none lines).1.map Prod.fst = lines) :=
  ⟨log_filter_of_reached .none lines, map_fst_log .none lines⟩

/-- A proof with questions and mistakes in between. -/
def wordyScript : List String :=
  ["show", "new P -> P", "rules 1", "apply beta 1", "new P &", "apply alpha 1 0", "",
    "close 1 3 X/", "close 1 2", "goals"]

/-- Three of its lines are left, which prove the formula as before. -/
theorem log_wordyScript :
    (∀ line ∈ wordyScript, verb? line ≠ some .quit) ∧
      (log none wordyScript).1.map Prod.fst = wordyScript ∧
      log none ["new P -> P", "apply alpha 1 0", "close 1 2"] =
        ((log none wordyScript).1.filter matters, (log none wordyScript).2) := by
  have hquit : ∀ line ∈ wordyScript, verb? line ≠ some .quit := by decide +kernel
  have hlines : ((log none wordyScript).1.filter matters).map Prod.fst =
      ["new P -> P", "apply alpha 1 0", "close 1 2"] := by
    decide +kernel
  obtain ⟨hlog, hall⟩ := log_filter_matters wordyScript
  exact ⟨hquit, hall hquit, hlines ▸ hlog⟩

end Console

end SignedTableaux
